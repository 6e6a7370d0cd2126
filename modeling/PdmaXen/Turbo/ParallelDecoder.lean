import Mathlib.Data.List.Basic

/-!
# The windows of the parallel decoder

`ssw_decoder` cuts a frame into eight overlapping windows, copies each into local arrays and
gives it to `subdecoder`. No branch of either depends on the samples, so a call is a list of
operations; the kernels are parameters that see their input windows only.
-/

namespace PdmaXen.Turbo.Parallel
set_option autoImplicit false

def bnum : Nat := 8
def swl : Nat := 24

/-- The arrays of `ssw_decoder`, and of a call of `subdecoder`. -/
inductive Local where
  | sys (seg : Nat)
  | parity (seg : Nat)
  | mm10 | mm11 | eext | ssys
deriving DecidableEq

/-- The number of shorts each of them is declared with. -/
def declared : Nat := 200

/-- The assignments and kernel calls. Kernels work at `off` in the global arrays. -/
inductive Op where
  | copySys (seg j src : Nat)
  | copyParity (seg j src : Nat)
  | setAlphainit (isfirst : Bool)
  | computeGamma (seg len : Nat)
  | computeAlpha (isfirst : Bool) (off : Nat)
  | computeBeta (off : Nat)
  | copyMm10 (kk off : Nat)
  | copyMm11 (kk off : Nat)
  | clearEext (kk : Nat)
  | copySsys (seg kk off : Nat)
  | computeExt (seg off : Nat)
  | setBetainit (terminated : Bool)
  | computePrebeta (off : Nat)

/-! ## `subdecoder` -/

def totalLen (blength : Nat) (isfirst islast : Bool) : Nat :=
  blength + 2 * swl - (islast.toNat + isfirst.toNat) * swl

/-- `ceil((double)blength/swl)+2`. -/
def timestep (blength : Nat) : Nat := (blength + swl - 1) / swl + 2

/-- `compute_beta` and `compute_ext` of a sub-window, with the copies between them. -/
def extrinsic (seg off : Nat) : List Op :=
  [.computeBeta off] ++
    (List.range swl).map (.copyMm10 · off) ++
    (List.range swl).map (.copyMm11 · off) ++
    (List.range swl).map .clearEext ++
    (List.range swl).map (.copySsys seg · off) ++
    [.computeExt seg off]

def round (seg decInd steps : Nat) (isfirst islast : Bool) (i : Nat) : List Op :=
  (if i < steps - 1 then [.computeAlpha isfirst (i * swl)] else []) ++
    (if i ≥ 2 || isfirst && i ≥ 1 then extrinsic seg ((i - 1) * swl) else []) ++
    if (i ≥ 1 || isfirst) && i < steps - 1 then
      if islast && i == steps - 2 then [.setBetainit (decInd == 1)]
      else [.computePrebeta ((i + 1) * swl)]
    else []

/-- `subdecoder` on `sys` and `parity` of a segment. Its parameter `ext` is in none of its
operations. -/
def subdecoder (seg blength decInd : Nat) (isfirst islast : Bool) : List Op :=
  [.setAlphainit isfirst, .computeGamma seg (totalLen blength isfirst islast)] ++
    (List.range (timestep blength)).flatMap
      (round seg decInd (timestep blength) isfirst islast)

/-! ## `ssw_decoder` -/

def blength (frameLength : Nat) : Nat := frameLength / bnum

def bstart (frameLength i : Nat) : Nat :=
  if i = 0 then 0 else i * blength frameLength - swl

def bend (frameLength i : Nat) : Nat :=
  if i = bnum - 1 then frameLength else (i + 1) * blength frameLength + swl - 1

/-- The two copies and the call for segment `i`. -/
def segment (frameLength decInd i : Nat) : List Op :=
  (List.range (bend frameLength i - bstart frameLength i)).map
      (fun j => .copySys i j (bstart frameLength i + j)) ++
    (List.range (bend frameLength i - bstart frameLength i)).map
      (fun j => .copyParity i j (bstart frameLength i + j)) ++
    subdecoder i (blength frameLength) decInd (i == 0) (i == bnum - 1)

def sswDecoder (frameLength decInd : Nat) : List Op :=
  (List.range bnum).flatMap (segment frameLength decInd)

/-! ## What an operation touches of the local arrays -/

def cells (a : Local) (count : Nat) : List (Local × Nat) := (List.range count).map (a, ·)

/-- `compute_gamma` works on whole groups of eight samples. -/
def Op.reads : Op → List (Local × Nat)
  | .computeGamma seg len => cells (.sys seg) (8 * (len / 8)) ++ cells (.parity seg) (8 * (len / 8))
  | .copySsys seg kk off => [(.sys seg, off + kk)]
  | .computeExt _ _ => cells .mm11 swl ++ cells .mm10 swl ++ cells .ssys swl
  | _ => []

def Op.writes : Op → List (Local × Nat)
  | .copySys seg j _ => [(.sys seg, j)]
  | .copyParity seg j _ => [(.parity seg, j)]
  | .copyMm10 kk _ => [(.mm10, kk)]
  | .copyMm11 kk _ => [(.mm11, kk)]
  | .clearEext kk => [(.eext, kk)]
  | .copySsys _ kk _ => [(.ssys, kk)]
  | .computeExt _ _ => cells .eext swl
  | _ => []

/-! ## What the operations do -/

/-- The kernels as functions of their input windows, over samples `S` and state metrics `V`. -/
structure Kernels (S V : Type) where
  zero : S
  alphainit : Bool → V
  betainit : Bool → V
  gamma : List S → List S → List S × List S
  alpha : Bool → V → List S → List S → List V × V
  beta : V → List S → List S → List V
  ext : List V → List V → List S → List S → List S → List S × List V × List V
  prebeta : List S → List S → List V × V

/-- The frame, the arrays, and in `computed` every extrinsic value with its segment and its place
in the window. -/
structure Memory (S V : Type) where
  systematic : Nat → S
  yParity : Nat → S
  locals : Local → Nat → S
  m11 : Nat → S
  m10 : Nat → S
  alpha : Nat → V
  beta : Nat → V
  alphainit : V
  betainit : V
  ext : Nat → S
  computed : List (Nat × Nat × S) := []

section
variable {S V : Type}

def load {α : Type} (f : Nat → α) (off count : Nat) : List α :=
  (List.range count).map fun k => f (off + k)

def store {α : Type} (f : Nat → α) (off : Nat) (l : List α) : Nat → α :=
  fun k => if off ≤ k then l.getD (k - off) (f k) else f k

def Memory.setLocal (m : Memory S V) (a : Local) (off : Nat) (l : List S) : Memory S V :=
  { m with locals := Function.update m.locals a (store (m.locals a) off l) }

def Op.run (K : Kernels S V) (m : Memory S V) : Op → Memory S V
  | .copySys seg j src => m.setLocal (.sys seg) j [m.systematic src]
  | .copyParity seg j src => m.setLocal (.parity seg) j [m.yParity src]
  | .setAlphainit isfirst => { m with alphainit := K.alphainit isfirst }
  | .computeGamma seg len =>
    let (m11, m10) := K.gamma (load (m.locals (.sys seg)) 0 (8 * (len / 8)))
      (load (m.locals (.parity seg)) 0 (8 * (len / 8)))
    { m with m11 := store m.m11 0 m11, m10 := store m.m10 0 m10 }
  | .computeAlpha isfirst off =>
    let (alpha, last) := K.alpha isfirst m.alphainit (load m.m11 off swl) (load m.m10 off swl)
    { m with alpha := store m.alpha off alpha, alphainit := last }
  | .computeBeta off =>
    { m with beta := store m.beta off (K.beta m.betainit (load m.m11 off swl) (load m.m10 off swl)) }
  | .copyMm10 kk off => m.setLocal .mm10 kk [m.m10 (off + kk)]
  | .copyMm11 kk off => m.setLocal .mm11 kk [m.m11 (off + kk)]
  | .clearEext kk => m.setLocal .eext kk [K.zero]
  | .copySsys seg kk off => m.setLocal .ssys kk [m.locals (.sys seg) (off + kk)]
  | .computeExt seg off =>
    -- the kernel also permutes the metrics it reads, in place
    let (ext, alpha, beta) := K.ext (load m.alpha off swl) (load m.beta (off + 1) swl)
      (load (m.locals .mm11) 0 swl) (load (m.locals .mm10) 0 swl) (load (m.locals .ssys) 0 swl)
    { m.setLocal .eext 0 ext with
      alpha := store m.alpha off alpha
      beta := store m.beta (off + 1) beta
      computed := m.computed ++ ext.mapIdx fun kk v => (seg, off + kk, v) }
  | .setBetainit terminated => { m with betainit := K.betainit terminated }
  | .computePrebeta off =>
    let (beta, last) := K.prebeta (load m.m11 off swl) (load m.m10 off swl)
    { m with beta := store m.beta off beta, betainit := last }

def run (K : Kernels S V) (m : Memory S V) (ops : List Op) : Memory S V := ops.foldl (Op.run K) m

/-! ## What the decoder should do -/

/-- Every position of the frame is in a window. -/
def Covers (n : Nat) : Prop := ∀ k < n, ∃ i < bnum, bstart n i ≤ k ∧ k < bend n i

/-- A window reads its samples only after they were copied from their places in the frame. -/
def CopiedIn (n : Nat) (ops : List Op) : Prop :=
  ∀ done op rest, ops = done ++ op :: rest → ∀ seg j,
    ((.sys seg, j) ∈ op.reads →
      bstart n seg + j < n ∧ .copySys seg j (bstart n seg + j) ∈ done) ∧
    ((.parity seg, j) ∈ op.reads →
      bstart n seg + j < n ∧ .copyParity seg j (bstart n seg + j) ∈ done)

def InBounds (ops : List Op) : Prop := ∀ op ∈ ops, ∀ c ∈ op.reads ++ op.writes, c.2 < declared

def decode (K : Kernels S V) (n decInd : Nat) (m : Memory S V) : Memory S V :=
  run K { m with computed := [] } (sswDecoder n decInd)

/-- `ext[k]` holds an extrinsic value computed for position `k`. -/
def HoldsExtrinsic (n : Nat) (m : Memory S V) : Prop :=
  ∀ k < n, ∃ seg j v, (seg, j, v) ∈ m.computed ∧ bstart n seg + j = k ∧ m.ext k = v

structure Correct (K : Kernels S V) (n decInd : Nat) (m : Memory S V) : Prop where
  covers : Covers n
  copiedIn : CopiedIn n (sswDecoder n decInd)
  inBounds : InBounds (sswDecoder n decInd)
  ext : HoldsExtrinsic n (decode K n decInd m)

/-! ## `ext` is never assigned -/

theorem run_op_ext (K : Kernels S V) (m : Memory S V) (op : Op) : (op.run K m).ext = m.ext := by
  cases op <;> rfl

theorem run_ext (K : Kernels S V) (m : Memory S V) (ops : List Op) : (run K m ops).ext = m.ext := by
  induction ops generalizing m with
  | nil => rfl
  | cons op ops ih => exact (ih (op.run K m)).trans (run_op_ext K m op)

theorem decode_ext (K : Kernels S V) (n decInd : Nat) (m : Memory S V) :
    (decode K n decInd m).ext = m.ext :=
  run_ext K _ _

end

/-! ## The windows -/

section
variable {n i k decInd : Nat}

theorem bend_sub_bstart (h8 : 8 ∣ n) (hlow : 192 ≤ n) (hi : i < bnum) :
    bend n i - bstart n i
      = blength n + if i = 0 then swl - 1 else if i = bnum - 1 then swl else 2 * swl - 1 := by
  obtain ⟨b, rfl⟩ := h8
  have hb : blength (8 * b) = b := Nat.mul_div_cancel_left b (by decide)
  simp only [bend, bstart, hb, bnum, swl] at *
  rcases Nat.eq_zero_or_pos i with rfl | hpos
  · simp
  · have hzero : i ≠ 0 := by omega
    have hle : 1 * b ≤ i * b := Nat.mul_le_mul_right b hpos
    simp only [hzero, if_false, Nat.succ_mul i b]
    by_cases hlast : i = 8 - 1
    · subst hlast
      simp only [if_true]
      omega
    · simp only [hlast, if_false]
      omega

theorem covers (h8 : 8 ∣ n) (hlow : 192 ≤ n) : Covers n := by
  obtain ⟨b, rfl⟩ := h8
  have hb : blength (8 * b) = b := Nat.mul_div_cancel_left b (by decide)
  intro k hk
  have hdiv : k / b < 8 := Nat.div_lt_of_lt_mul (by omega)
  have hmod := Nat.div_add_mod k b
  have hlt : k % b < b := Nat.mod_lt k (by omega)
  rw [Nat.mul_comm] at hmod
  refine ⟨k / b, hdiv, ?_, ?_⟩
  · rw [bstart, hb]
    split
    · exact Nat.zero_le k
    · omega
  · rw [bend, hb]
    split
    · exact hk
    · rw [Nat.succ_mul]
      simp only [swl]
      omega

end

/-! ## The operations of a window -/

section
variable {op : Op} {n seg off i b decInd steps : Nat} {isfirst islast : Bool}

theorem extrinsic_cases (h : op ∈ extrinsic seg off) :
    op = .computeBeta off ∨ (∃ kk < swl, op = .copyMm10 kk off) ∨
    (∃ kk < swl, op = .copyMm11 kk off) ∨ (∃ kk < swl, op = .clearEext kk) ∨
    (∃ kk < swl, op = .copySsys seg kk off) ∨ op = .computeExt seg off := by
  simp only [extrinsic, List.mem_append, List.mem_singleton, List.mem_map, List.mem_range,
    or_assoc] at h
  rcases h with h | ⟨kk, hkk, rfl⟩ | ⟨kk, hkk, rfl⟩ | ⟨kk, hkk, rfl⟩ | ⟨kk, hkk, rfl⟩ | h
  · exact Or.inl h
  · exact Or.inr (Or.inl ⟨kk, hkk, rfl⟩)
  · exact Or.inr (Or.inr (Or.inl ⟨kk, hkk, rfl⟩))
  · exact Or.inr (Or.inr (Or.inr (Or.inl ⟨kk, hkk, rfl⟩)))
  · exact Or.inr (Or.inr (Or.inr (Or.inr (Or.inl ⟨kk, hkk, rfl⟩))))
  · exact Or.inr (Or.inr (Or.inr (Or.inr (Or.inr h))))

theorem round_cases (h : op ∈ round seg decInd steps isfirst islast i) :
    op ∈ extrinsic seg ((i - 1) * swl) ∨ op.reads = [] ∧ op.writes = [] := by
  simp only [round, List.mem_append] at h
  rcases h with (h | h) | h
  · right
    split at h
    · obtain rfl := List.mem_singleton.mp h
      exact ⟨rfl, rfl⟩
    · cases h
  · left
    split at h
    · exact h
    · cases h
  · right
    split at h
    · split at h
      · obtain rfl := List.mem_singleton.mp h
        exact ⟨rfl, rfl⟩
      · obtain rfl := List.mem_singleton.mp h
        exact ⟨rfl, rfl⟩
    · cases h

theorem subdecoder_cases (h : op ∈ subdecoder seg b decInd isfirst islast) :
    op = .computeGamma seg (totalLen b isfirst islast) ∨
    (∃ i < timestep b, op ∈ extrinsic seg ((i - 1) * swl)) ∨ op.reads = [] ∧ op.writes = [] := by
  simp only [subdecoder, List.mem_append, List.mem_cons, List.not_mem_nil, or_false,
    List.mem_flatMap, List.mem_range] at h
  rcases h with (rfl | h) | ⟨i, hi, h⟩
  · exact Or.inr (Or.inr ⟨rfl, rfl⟩)
  · exact Or.inl h
  · rcases round_cases h with h | h
    · exact Or.inr (Or.inl ⟨i, hi, h⟩)
    · exact Or.inr (Or.inr h)

/-- `subdecoder` writes only to its own four arrays. -/
theorem sys_notMem_writes (h : op ∈ subdecoder seg b decInd isfirst islast) (s j : Nat) :
    (.sys s, j) ∉ op.writes := by
  rcases subdecoder_cases h with rfl | ⟨i, -, h⟩ | ⟨-, hwrites⟩
  · simp [Op.writes]
  · rcases extrinsic_cases h with rfl | ⟨kk, -, rfl⟩ | ⟨kk, -, rfl⟩ | ⟨kk, -, rfl⟩ | ⟨kk, -, rfl⟩ | rfl
      <;> simp [Op.writes, cells]
  · simp [hwrites]

theorem copySys_mem_iff {j src : Nat} : .copySys seg j src ∈ sswDecoder n decInd ↔
    seg < bnum ∧ j < bend n seg - bstart n seg ∧ src = bstart n seg + j := by
  simp only [sswDecoder, List.mem_flatMap, List.mem_range, segment, List.mem_append, List.mem_map]
  constructor
  · intro h
    obtain ⟨i, hi, h⟩ := h
    rcases h with (⟨k, hk, heq⟩ | ⟨k, -, heq⟩) | h
    · cases heq
      exact ⟨hi, hk, rfl⟩
    · cases heq
    · exact absurd (List.mem_singleton_self _) (sys_notMem_writes h seg j)
  · intro h
    obtain ⟨hseg, hj, rfl⟩ := h
    exact ⟨seg, hseg, Or.inl (Or.inl ⟨j, hj, rfl⟩)⟩

/-- In its last round the first window reads a whole sub-window past its own end. -/
theorem copySsys_mem (n decInd : Nat) :
    .copySsys 0 (swl - 1) ((blength n + swl - 1) / swl * swl) ∈ sswDecoder n decInd := by
  apply List.mem_flatMap.mpr
  refine ⟨0, List.mem_range.mpr (by decide), ?_⟩
  apply List.mem_append_right
  apply List.mem_append_right
  apply List.mem_flatMap.mpr
  refine ⟨(blength n + swl - 1) / swl + 1, List.mem_range.mpr (Nat.lt_succ_self _), ?_⟩
  simp only [round, List.mem_append]
  left
  right
  rw [if_pos (by simp)]
  simp only [extrinsic, List.mem_append, List.mem_map, List.mem_range]
  exact Or.inl (Or.inr ⟨swl - 1, by decide, rfl⟩)

/-- The last sample that the first window gives to `compute_ext` was never copied. -/
theorem not_copiedIn (h8 : 8 ∣ n) (hlow : 192 ≤ n) : ¬ CopiedIn n (sswDecoder n decInd) := by
  intro h
  obtain ⟨done, rest, heq⟩ := List.append_of_mem (copySsys_mem n decInd)
  obtain ⟨-, hdone⟩ := (h done _ rest heq 0 _).1 (List.mem_singleton_self _)
  have hmem : ∀ op ∈ done, op ∈ sswDecoder n decInd := by
    intro op hop
    rw [heq]
    exact List.mem_append_left _ hop
  obtain ⟨-, hlt, -⟩ := copySys_mem_iff.mp (hmem _ hdone)
  rw [bend_sub_bstart h8 hlow (by decide), if_pos rfl] at hlt
  have hceil := Nat.div_add_mod (blength n + swl - 1) swl
  have hmod := Nat.mod_lt (blength n + swl - 1) (show 0 < swl by decide)
  rw [Nat.mul_comm] at hceil
  simp only [swl] at *
  omega

/-! ## The local arrays -/

theorem mem_cells {a : Local} {count : Nat} {c : Local × Nat} (h : c ∈ cells a count) :
    c.2 < count := by
  obtain ⟨k, hk, rfl⟩ := List.mem_map.mp h
  exact List.mem_range.mp hk

theorem extrinsic_below (h : op ∈ extrinsic seg off) {c : Local × Nat}
    (hc : c ∈ op.reads ++ op.writes) : c.2 < off + swl := by
  have hcell : ∀ {a : Local} {kk : Nat}, c ∈ [(a, kk)] → kk < swl → c.2 < off + swl := by
    intro a kk hmem hkk
    obtain rfl := List.mem_singleton.mp hmem
    exact Nat.lt_of_lt_of_le hkk (Nat.le_add_left swl off)
  have hcells : ∀ {a : Local}, c ∈ cells a swl → c.2 < off + swl := by
    intro a hmem
    exact Nat.lt_of_lt_of_le (mem_cells hmem) (Nat.le_add_left swl off)
  rcases extrinsic_cases h with rfl | ⟨kk, hkk, rfl⟩ | ⟨kk, hkk, rfl⟩ | ⟨kk, hkk, rfl⟩ |
    ⟨kk, hkk, rfl⟩ | rfl
  · cases hc
  · exact hcell hc hkk
  · exact hcell hc hkk
  · exact hcell hc hkk
  · rcases List.mem_append.mp hc with hread | hwrite
    · obtain rfl := List.mem_singleton.mp hread
      exact Nat.add_lt_add_left hkk off
    · exact hcell hwrite hkk
  · simp only [Op.reads, Op.writes, List.mem_append, or_assoc] at hc
    rcases hc with hc | hc | hc | hc
    · exact hcells hc
    · exact hcells hc
    · exact hcells hc
    · exact hcells hc

/-- What `subdecoder` reads and writes stays below the length it was given, rounded up to whole
sub-windows with one more. -/
theorem subdecoder_below (h : op ∈ subdecoder seg b decInd isfirst islast) {c : Local × Nat}
    (hc : c ∈ op.reads ++ op.writes) :
    c.2 < max (8 * ((b + 2 * swl) / 8)) ((b + swl - 1) / swl * swl + swl) := by
  rcases subdecoder_cases h with rfl | ⟨i, hi, h⟩ | ⟨hreads, hwrites⟩
  · have hlen : totalLen b isfirst islast ≤ b + 2 * swl := Nat.sub_le _ _
    have hgroups := Nat.div_le_div_right (c := 8) hlen
    simp only [Op.reads, Op.writes, List.append_nil, List.mem_append] at hc
    rcases hc with hc | hc
    · have hlt := mem_cells hc
      omega
    · have hlt := mem_cells hc
      omega
  · have hlt := extrinsic_below h hc
    have hle : (i - 1) * swl ≤ (b + swl - 1) / swl * swl := by
      apply Nat.mul_le_mul_right
      exact Nat.sub_le_of_le_add (Nat.le_of_lt_succ hi)
    exact Nat.lt_of_lt_of_le hlt (Nat.le_trans (Nat.add_le_add_right hle swl) (Nat.le_max_right _ _))
  · rw [hreads, hwrites] at hc
    cases hc

/-- The arrays are large enough exactly for frames of up to 1224 samples. -/
theorem inBounds_iff (h8 : 8 ∣ n) (hlow : 192 ≤ n) :
    InBounds (sswDecoder n decInd) ↔ n ≤ 1224 := by
  have hn : n = 8 * blength n := (Nat.mul_div_cancel' h8).symm
  constructor
  · intro h
    by_contra hlong
    have hmem : .copySys 1 (blength n + 46) (bstart n 1 + (blength n + 46)) ∈ sswDecoder n decInd := by
      rw [copySys_mem_iff, bend_sub_bstart h8 hlow (by decide)]
      exact ⟨by decide, Nat.lt_succ_self _, rfl⟩
    have hlt := h _ hmem _ (List.mem_singleton_self _)
    simp only [declared] at hlt
    omega
  · intro hshort op hop c hc
    obtain ⟨i, hi, hop⟩ := List.mem_flatMap.mp hop
    have hsize := bend_sub_bstart h8 hlow (List.mem_range.mp hi)
    have hwindow : bend n i - bstart n i ≤ blength n + 47 := by
      rw [hsize]
      simp only [swl]
      split
      · omega
      · split <;> omega
    simp only [segment, List.mem_append, List.mem_map, List.mem_range] at hop
    rcases hop with (⟨j, hj, rfl⟩ | ⟨j, hj, rfl⟩) | hop
    · obtain rfl := List.mem_singleton.mp hc
      simp only [declared]
      omega
    · obtain rfl := List.mem_singleton.mp hc
      simp only [declared]
      omega
    · have hlt := subdecoder_below hop hc
      simp only [swl, declared] at *
      omega

end

/-- Whatever the kernels and the samples are: the windows cover the frame, the local arrays are
large enough only up to 1224 samples, the first window uses a sample that was never copied, and
`ext` is returned as it was passed. -/
theorem sswDecoder_never_correct {S V : Type} (K : Kernels S V) (decInd : Nat) (m : Memory S V)
    {n : Nat} (h8 : 8 ∣ n) (hrange : 192 ≤ n ∧ n ≤ 6144) :
    ¬ Correct K n decInd m ∧ Covers n ∧ ¬ CopiedIn n (sswDecoder n decInd) ∧
      (InBounds (sswDecoder n decInd) ↔ n ≤ 1224) ∧ (decode K n decInd m).ext = m.ext := by
  have hcopied : ¬ CopiedIn n (sswDecoder n decInd) := not_copiedIn h8 hrange.1
  refine ⟨fun h => hcopied h.copiedIn, covers h8 hrange.1, hcopied, inBounds_iff h8 hrange.1, ?_⟩
  exact decode_ext K n decInd m

def zeroKernels : Kernels Int Unit where
  zero := 0
  alphainit := fun _ => ()
  betainit := fun _ => ()
  gamma := fun systematic _ => (systematic.map fun _ => 0, systematic.map fun _ => 0)
  alpha := fun _ _ m11 _ => (() :: m11.map fun _ => (), ())
  beta := fun _ m11 _ => () :: m11.map fun _ => ()
  ext := fun alpha beta _ _ systematic => (systematic.map fun _ => 0, alpha, beta)
  prebeta := fun m11 _ => (() :: m11.map fun _ => (), ())

def ones : Memory Int Unit where
  systematic := fun _ => 1
  yParity := fun _ => 1
  locals := fun _ _ => 1
  m11 := fun _ => 1
  m10 := fun _ => 1
  alpha := fun _ => ()
  beta := fun _ => ()
  alphainit := ()
  betainit := ()
  ext := fun _ => 1

theorem sswDecoder_never_correct_shortest :
    ¬ Correct zeroKernels 192 1 ones ∧ Covers 192 ∧ ¬ CopiedIn 192 (sswDecoder 192 1) ∧
      (InBounds (sswDecoder 192 1) ↔ 192 ≤ 1224) ∧ (decode zeroKernels 192 1 ones).ext = ones.ext :=
  sswDecoder_never_correct zeroKernels 1 ones ⟨24, rfl⟩ (by decide)

/-- The shortest frame: sample 47 of the first window was not copied. -/
theorem sswDecoder_incorrect : ¬ Correct zeroKernels 192 1 ones :=
  fun h => not_copiedIn ⟨24, rfl⟩ (by decide) h.copiedIn

end PdmaXen.Turbo.Parallel
