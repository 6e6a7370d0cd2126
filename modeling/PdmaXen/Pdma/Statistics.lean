import Mathlib.Algebra.Group.Nat.Defs
import PdmaXen.Pdma.Ownership
import PdmaXen.Samples

/-!
# The statistics of a `PDMA_DEBUG` driver

`pdma_get_stat` in its machine words, and the invariant of the gauges and their
history: a gauge is the length of its list, and what was recorded of it lies
between its running extreme and what the list can hold.
-/

namespace PdmaXen.Pdma
set_option autoImplicit false
open Dev Pool Samples

/-! ## `pdma_get_stat` -/

structure PdmaStat where
  rdFreeCnt : UInt32
  rdSubmitCnt : UInt32
  rdPendingCnt : UInt32
  wtFreeCnt : UInt32
  wtSubmitCnt : UInt32
  wtPendingCnt : UInt32
  rdFifoMin : UInt32
  rdFifoAvg : UInt32
  rdFifoCur : UInt32
  rdPendingMax : UInt32
  rdPendingAvg : UInt32
  rdPendingCur : UInt32
  wtFifoMax : UInt32
  wtFifoAvg : UInt32
  wtFifoCur : UInt32
  wtPendingMax : UInt32
  wtPendingAvg : UInt32
  wtPendingCur : UInt32

/-- What one block of `pdma_get_stat` reads: `total` and `cnt` in `unsigned long`, the
minimum or maximum and the gauge in `unsigned int`, and what it divides by. -/
structure Series where
  total : UInt64
  cnt : UInt64
  extreme : UInt32
  cur : UInt32
  depth : UInt32

def Series.avg (s : Series) : UInt32 := if s.cnt == 0 then s.cur else (s.total / s.cnt).toUInt32

def percentOf (depth x : UInt32) : UInt32 :=
  let pct := x * 100 / depth
  if pct == 0 && x != 0 then 1 else pct

def Series.extremePct (s : Series) : UInt32 := percentOf s.depth s.extreme
def Series.avgPct (s : Series) : UInt32 := percentOf s.depth s.avg
def Series.curPct (s : Series) : UInt32 := percentOf s.depth s.cur

namespace Stat
variable (g : Geometry) (t : Stat)

def rdFifoSeries : Series :=
  { total := .ofInt t.rdFifoTotal, cnt := .ofInt t.rdFifoCnt, extreme := .ofInt t.rdFifoMin
    cur := .ofInt t.rdSubmit, depth := .ofNat rdFifoDepth }

def rdPendingSeries : Series :=
  { total := .ofInt t.rdPendingTotal, cnt := .ofInt t.rdPendingCnt, extreme := .ofInt t.rdPendingMax
    cur := .ofInt t.rdPending, depth := .ofNat g.rdBufNr }

def wtFifoSeries : Series :=
  { total := .ofInt t.wtFifoTotal, cnt := .ofInt t.wtFifoCnt, extreme := .ofInt t.wtFifoMax
    cur := .ofInt t.wtSubmit, depth := .ofNat wtFifoDepth }

def wtPendingSeries : Series :=
  { total := .ofInt t.wtPendingTotal, cnt := .ofInt t.wtPendingCnt, extreme := .ofInt t.wtPendingMax
    cur := .ofInt t.wtPending, depth := .ofNat g.wtBufNr }

def getStat : PdmaStat where
  rdFreeCnt := .ofInt t.rdFree
  rdSubmitCnt := .ofInt t.rdSubmit
  rdPendingCnt := .ofInt t.rdPending
  wtFreeCnt := .ofInt t.wtFree
  wtSubmitCnt := .ofInt t.wtSubmit
  wtPendingCnt := .ofInt t.wtPending
  rdFifoMin := t.rdFifoSeries.extremePct
  rdFifoAvg := t.rdFifoSeries.avgPct
  rdFifoCur := t.rdFifoSeries.curPct
  rdPendingMax := (t.rdPendingSeries g).extremePct
  rdPendingAvg := (t.rdPendingSeries g).avgPct
  rdPendingCur := (t.rdPendingSeries g).curPct
  wtFifoMax := t.wtFifoSeries.extremePct
  wtFifoAvg := t.wtFifoSeries.avgPct
  wtFifoCur := t.wtFifoSeries.curPct
  wtPendingMax := (t.wtPendingSeries g).extremePct
  wtPendingAvg := (t.wtPendingSeries g).avgPct
  wtPendingCur := (t.wtPendingSeries g).curPct

end Stat

/-- A block divides by no zero (`cnt` is tested in the code), and none of its products
leaves 32 bits. -/
structure Series.Defined (s : Series) : Prop where
  depth : s.depth ≠ 0
  extreme : s.extreme.toNat * 100 < 2 ^ 32
  avg : s.avg.toNat * 100 < 2 ^ 32
  cur : s.cur.toNat * 100 < 2 ^ 32

/-! ## The arithmetic of a block -/

theorem toNat_ofInt32 {v : Int} (h : 0 ≤ v) (hlt : v < 2 ^ 32) : ((UInt32.ofInt v).toNat : Int) = v := by
  rw [UInt32.ofInt, UInt32.toNat_ofNat']
  omega

theorem toNat_ofInt64 {v : Int} (h : 0 ≤ v) (hlt : v < 2 ^ 64) : ((UInt64.ofInt v).toNat : Int) = v := by
  rw [UInt64.ofInt, UInt64.toNat_ofNat']
  omega

theorem toNat_percentOf {depth x : UInt32} (h : x.toNat * 100 < 2 ^ 32) :
    (percentOf depth x).toNat = percent depth.toNat x.toNat := by
  have hdiv : (x * 100 / depth).toNat = x.toNat * 100 / depth.toNat := by
    rw [UInt32.toNat_div, UInt32.toNat_mul]
    exact congrArg (· / depth.toNat) (Nat.mod_eq_of_lt h)
  have hzero : (x * 100 / depth == 0 && x != 0) =
      decide (x.toNat * 100 / depth.toNat = 0 ∧ x.toNat ≠ 0) := by
    rw [Bool.eq_iff_iff, Bool.and_eq_true, beq_iff_eq, bne_iff_ne, decide_eq_true_eq, ne_eq,
      ← UInt32.toNat_inj, ← UInt32.toNat_inj, hdiv]
    rfl
  simp only [percentOf, percent, hzero, decide_eq_true_eq]
  split
  · rfl
  · exact hdiv

/-- The words of a block whose history is recorded in `total`, `cnt` and `extreme`. -/
structure Series.Holds (s : Series) (total cnt extreme cur depth : Int) : Prop where
  total : (s.total.toNat : Int) = total
  cnt : (s.cnt.toNat : Int) = cnt
  extreme : (s.extreme.toNat : Int) = extreme
  cur : (s.cur.toNat : Int) = cur
  depth : (s.depth.toNat : Int) = depth

theorem Series.Holds.avg {s : Series} {total cnt extreme cur depth : Int}
    (h : s.Holds total cnt extreme cur depth) (hlt : total / cnt < 2 ^ 32) :
    (s.avg.toNat : Int) = if cnt = 0 then cur else total / cnt := by
  have hzero : (s.cnt == 0) = decide (cnt = 0) := by
    rw [Bool.eq_iff_iff, beq_iff_eq, decide_eq_true_eq, ← UInt64.toNat_inj, ← h.cnt]
    simp
  simp only [Series.avg, hzero, decide_eq_true_eq]
  split
  · exact h.cur
  · have hdiv : total / cnt = ((s.total.toNat / s.cnt.toNat : Nat) : Int) := by
      rw [← h.total, ← h.cnt, Int.natCast_ediv]
    rw [UInt64.toNat_toUInt32, UInt64.toNat_div]
    rw [hdiv] at hlt ⊢
    exact congrArg Nat.cast (Nat.mod_eq_of_lt (by exact_mod_cast hlt))

/-- A block whose average lies between its extreme and its depth is defined. -/
theorem Series.Holds.defined {s : Series} {total cnt extreme cur depth : Int}
    (h : s.Holds total cnt extreme cur depth) (hpos : 0 < depth) (hsmall : depth * 100 < 2 ^ 32)
    (hextreme : extreme ≤ depth) (hcur : cur ≤ depth) (havg : (s.avg.toNat : Int) ≤ depth) :
    s.Defined := by
  have he := h.extreme
  have hc := h.cur
  refine ⟨?_, by omega, by omega, by omega⟩
  intro hzero
  have hdepth := h.depth
  rw [hzero] at hdepth
  simp only [UInt32.toNat_zero] at hdepth
  omega

theorem percentOf_le_percentOf {depth x y : UInt32} (hx : x.toNat * 100 < 2 ^ 32)
    (hy : y.toNat * 100 < 2 ^ 32) (h : (x.toNat : Int) ≤ y.toNat) :
    percentOf depth x ≤ percentOf depth y := by
  rw [UInt32.le_iff_toNat_le, toNat_percentOf hx, toNat_percentOf hy]
  exact percent_mono (by omega)

theorem percentOf_le_hundred {depth x : UInt32} (hx : x.toNat * 100 < 2 ^ 32)
    (h : (x.toNat : Int) ≤ depth.toNat) : percentOf depth x ≤ 100 := by
  rw [UInt32.le_iff_toNat_le, toNat_percentOf hx]
  exact percent_le (by omega)

/-- The history of a gauge with a running maximum. Nothing was sampled as long as the
gauge has never been raised. -/
structure Peak (total cnt max cur depth : Int) : Prop where
  between : Between total cnt 0 max
  max_nonneg : 0 ≤ max
  max_le : max ≤ depth
  unsampled : cnt = 0 → cur = 0

/-- The history of a gauge with a running minimum. -/
structure Floor (total cnt min depth : Int) : Prop where
  between : Between total cnt min depth
  min_nonneg : 0 ≤ min
  min_le : min ≤ depth
  unsampled : cnt = 0 → min = 0

theorem Peak.sample {total cnt max cur depth val : Int} (h : Peak total cnt max cur depth)
    (hlo : 0 ≤ val) (hhi : val ≤ depth) :
    Peak (total + val) (cnt + 1) (if val > max then val else max) val depth := by
  have hcnt := h.between.cnt_nonneg
  have hmax := h.max_nonneg
  have hle := h.max_le
  refine ⟨h.between.sample_max hlo, ?_, ?_, fun hzero => ?_⟩
  · split <;> omega
  · split <;> omega
  · omega

theorem Peak.lower {total cnt max cur depth : Int} (h : Peak total cnt max cur depth) (val : Int)
    (hlo : 0 ≤ val) (hle : val ≤ cur) : Peak total cnt max val depth := by
  refine ⟨h.between, h.max_nonneg, h.max_le, fun hzero => ?_⟩
  have := h.unsampled hzero
  omega

theorem Floor.sample {total cnt min depth val : Int} (h : Floor total cnt min depth)
    (hlo : 0 ≤ val) (hhi : val ≤ depth) :
    Floor (total + val) (cnt + 1) (if val < min ∨ cnt + 1 = 1 then val else min) depth := by
  have hcnt := h.between.cnt_nonneg
  have hmin := h.min_nonneg
  have hle := h.min_le
  refine ⟨h.between.sample_min hhi, ?_, ?_, fun hzero => ?_⟩
  · split <;> omega
  · split <;> omega
  · omega

theorem Peak.block {s : Series} {total cnt max cur depth : Int} (h : Peak total cnt max cur depth)
    (hs : s.Holds total cnt max cur depth) (hpos : 0 < depth) (hsmall : depth * 100 < 2 ^ 32)
    (hcur : cur ≤ depth) : s.Defined ∧ s.avgPct ≤ s.extremePct ∧ s.extremePct ≤ 100 := by
  have hmax := h.max_le
  have hcnt := h.between.cnt_nonneg
  have havg : (s.avg.toNat : Int) ≤ max := by
    by_cases hzero : cnt = 0
    · have hlt : total / cnt < 2 ^ 32 := by
        rw [hzero, Int.ediv_zero]
        decide
      rw [hs.avg hlt, if_pos hzero, h.unsampled hzero]
      exact h.max_nonneg
    · have hle := h.between.avg_le (by omega)
      rw [hs.avg (by omega), if_neg hzero]
      exact hle
  have hdef := hs.defined hpos hsmall hmax hcur (by omega)
  have he := hs.extreme
  have hd := hs.depth
  exact ⟨hdef, percentOf_le_percentOf hdef.avg hdef.extreme (by omega),
    percentOf_le_hundred hdef.extreme (by omega)⟩

theorem Floor.block {s : Series} {total cnt min cur depth : Int} (h : Floor total cnt min depth)
    (hs : s.Holds total cnt min cur depth) (hpos : 0 < depth) (hsmall : depth * 100 < 2 ^ 32)
    (hlo : 0 ≤ cur) (hcur : cur ≤ depth) :
    s.Defined ∧ s.extremePct ≤ s.avgPct ∧ s.avgPct ≤ 100 := by
  have hcnt := h.between.cnt_nonneg
  have havg : min ≤ s.avg.toNat ∧ (s.avg.toNat : Int) ≤ depth := by
    by_cases hzero : cnt = 0
    · have hlt : total / cnt < 2 ^ 32 := by
        rw [hzero, Int.ediv_zero]
        decide
      rw [hs.avg hlt, if_pos hzero, h.unsampled hzero]
      exact ⟨hlo, hcur⟩
    · have hle := h.between.avg_le (by omega)
      rw [hs.avg (by omega), if_neg hzero]
      exact ⟨h.between.le_avg (by omega), hle⟩
  have hdef := hs.defined hpos hsmall h.min_le hcur havg.2
  have he := hs.extreme
  have hd := hs.depth
  exact ⟨hdef, percentOf_le_percentOf hdef.extreme hdef.avg (by omega),
    percentOf_le_hundred hdef.avg (by omega)⟩

/-! ## Gauges and lists -/

/-- Each gauge is the length of its list, and each history is one of its gauge. -/
structure Metered (g : Geometry) (rd wt : Side) (t : Stat) : Prop where
  rdFree : t.rdFree = rd.free.length
  rdSubmit : t.rdSubmit = rd.submit.length
  rdPending : t.rdPending = rd.pending.length
  wtFree : t.wtFree = wt.free.length
  wtSubmit : t.wtSubmit = wt.submit.length
  wtPending : t.wtPending = wt.pending.length
  rdFifo : Floor t.rdFifoTotal t.rdFifoCnt t.rdFifoMin rdFifoDepth
  rdPend : Peak t.rdPendingTotal t.rdPendingCnt t.rdPendingMax t.rdPending g.rdBufNr
  wtFifo : Peak t.wtFifoTotal t.wtFifoCnt t.wtFifoMax t.wtSubmit wtFifoDepth
  wtPend : Peak t.wtPendingTotal t.wtPendingCnt t.wtPendingMax t.wtPending g.wtBufNr

namespace Metered
variable {g : Geometry} {rd wt : Side} {t : Stat} {b : Buf} {rest : List Buf}

theorem submitRead (h : Metered g rd wt t) (hfree : rd.free = b :: rest) (phys : Buf → DmaAddr) :
    Metered g ({ rd with free := rest }.post phys b) wt t.rdFreeDec.rdSubmitInc :=
  { h with
    rdFree := by simp [Stat.rdFreeDec, Stat.rdSubmitInc, Side.post, h.rdFree, hfree]
    rdSubmit := by simp [Stat.rdFreeDec, Stat.rdSubmitInc, Side.post, h.rdSubmit] }

theorem completeRead (h : Metered g rd wt t) (hsubmit : rd.submit = b :: rest)
    (hdepth : rd.submit.length ≤ rdFifoDepth) (hnr : rd.pending.length + 1 ≤ g.rdBufNr)
    (mem : Buf → Bytes) :
    Metered g { rd with submit := rest, pending := rd.pending ++ [b], mem := mem } wt
      t.rdSubmitDec.rdPendingInc := by
  have hlen := h.rdSubmit
  have hpend := h.rdPending
  have hsame : t.rdSubmitDec.rdPending = t.rdPending := rfl
  simp only [hsubmit, List.length_cons] at hlen hdepth
  push_cast at hlen
  exact { h with
    rdSubmit := by
      simp only [Stat.rdSubmitDec, Stat.rdPendingInc]
      omega
    rdPending := by simp [Stat.rdSubmitDec, Stat.rdPendingInc, hpend]
    rdFifo := h.rdFifo.sample (by omega) (by omega)
    rdPend := h.rdPend.sample (by omega) (by omega) }

theorem submitWrite (h : Metered g rd wt t) (hpending : wt.pending = b :: rest)
    (hroom : wt.submit.length < wtFifoDepth) (phys : Buf → DmaAddr) :
    Metered g rd ({ wt with pending := rest }.post phys b) t.wtPendingDec.wtSubmitInc := by
  have hlen := h.wtPending
  have hsubmit := h.wtSubmit
  have hsame : t.wtPendingDec.wtSubmit = t.wtSubmit := rfl
  simp only [hpending, List.length_cons] at hlen
  push_cast at hlen
  exact { h with
    wtPending := by
      simp only [Stat.wtPendingDec, Stat.wtSubmitInc, Side.post]
      omega
    wtSubmit := by simp [Stat.wtPendingDec, Stat.wtSubmitInc, Side.post, hsubmit]
    wtFifo := h.wtFifo.sample (by omega) (by omega)
    wtPend := h.wtPend.lower (t.wtPending - 1) (by omega) (by omega) }

theorem completeWrite (h : Metered g rd wt t) (hsubmit : wt.submit = b :: rest) :
    Metered g rd { wt with submit := rest, free := wt.free ++ [b] } t.wtSubmitDec.wtFreeInc := by
  have hlen := h.wtSubmit
  simp only [hsubmit, List.length_cons] at hlen
  push_cast at hlen
  exact { h with
    wtFree := by simp [Stat.wtSubmitDec, Stat.wtFreeInc, h.wtFree]
    wtSubmit := by
      simp only [Stat.wtSubmitDec, Stat.wtFreeInc]
      omega
    wtFifo := h.wtFifo.lower (t.wtSubmit - 1) (by omega) (by omega) }

theorem takeRead (h : Metered g rd wt t) (hpending : rd.pending = b :: rest) :
    Metered g { rd with pending := rest } wt t.rdPendingDec := by
  have hlen := h.rdPending
  simp only [hpending, List.length_cons] at hlen
  push_cast at hlen
  exact { h with
    rdPending := by
      simp only [Stat.rdPendingDec]
      omega
    rdPend := h.rdPend.lower (t.rdPending - 1) (by omega) (by omega) }

theorem requeueRead (h : Metered g rd wt t) (hnr : rd.pending.length + 1 ≤ g.rdBufNr) :
    Metered g { rd with pending := b :: rd.pending } wt t.rdPendingInc := by
  have hlen := h.rdPending
  exact { h with
    rdPending := by simp [Stat.rdPendingInc, hlen]
    rdPend := h.rdPend.sample (by omega) (by omega) }

theorem releaseRead (h : Metered g rd wt t) :
    Metered g { rd with free := rd.free ++ [b] } wt t.rdFreeInc :=
  { h with rdFree := by simp [Stat.rdFreeInc, h.rdFree] }

theorem takeWrite (h : Metered g rd wt t) (hfree : wt.free = b :: rest) :
    Metered g rd { wt with free := rest } t.wtFreeDec :=
  { h with wtFree := by simp [Stat.wtFreeDec, h.wtFree, hfree] }

theorem requeueWrite (h : Metered g rd wt t) :
    Metered g rd { wt with free := b :: wt.free } t.wtFreeInc :=
  { h with wtFree := by simp [Stat.wtFreeInc, h.wtFree] }

theorem postWrite (h : Metered g rd wt t) (hroom : wt.submit.length < wtFifoDepth)
    (phys : Buf → DmaAddr) : Metered g rd (wt.post phys b) t.wtSubmitInc := by
  have hlen := h.wtSubmit
  exact { h with
    wtSubmit := by simp [Stat.wtSubmitInc, Side.post, hlen]
    wtFifo := h.wtFifo.sample (by omega) (by omega) }

theorem pendWrite (h : Metered g rd wt t) (hnr : wt.pending.length + 1 ≤ g.wtBufNr) :
    Metered g rd { wt with pending := wt.pending ++ [b] } t.wtPendingInc := by
  have hlen := h.wtPending
  exact { h with
    wtPending := by simp [Stat.wtPendingInc, hlen]
    wtPend := h.wtPend.sample (by omega) (by omega) }

theorem fresh (g : Geometry) (mem mem' : Buf → Bytes) :
    Metered g { free := List.range g.rdBufNr, mem := mem }
      { free := List.range g.wtBufNr, mem := mem' } { rdFree := g.rdBufNr, wtFree := g.wtBufNr } := by
  have hpeak : ∀ depth : Nat, Peak 0 0 0 0 (depth : Int) := fun depth =>
    ⟨.empty 0 0, le_refl 0, Int.natCast_nonneg depth, fun _ => rfl⟩
  exact {
    rdFree := by simp
    rdSubmit := rfl
    rdPending := rfl
    wtFree := by simp
    wtSubmit := rfl
    wtPending := rfl
    rdFifo := ⟨.empty 0 _, le_refl 0, Int.natCast_nonneg _, fun _ => rfl⟩
    rdPend := hpeak _
    wtFifo := hpeak _
    wtPend := hpeak _ }

end Metered

/-! ## The loops -/

namespace Dev
variable {g : Geometry}

theorem metered_submitReadLoop (free : List Buf) (d : Dev) (hfree : d.rd.free = free)
    (h : Metered g d.rd d.wt d.stat) :
    Metered g (submitReadLoop g free d).rd (submitReadLoop g free d).wt
      (submitReadLoop g free d).stat := by
  induction free generalizing d with
  | nil => exact h
  | cons b free ih =>
    rw [submitReadLoop]
    split
    · exact ih _ rfl (h.submitRead hfree g.rdPhys)
    · exact h

theorem metered_tryToSubmitRead (d : Dev) (h : Metered g d.rd d.wt d.stat) :
    Metered g (tryToSubmitReadNolock g d).rd (tryToSubmitReadNolock g d).wt
      (tryToSubmitReadNolock g d).stat := by
  unfold tryToSubmitReadNolock
  split
  · exact metered_submitReadLoop d.rd.free d rfl h
  · exact h

theorem metered_submitWriteLoop (pending : List Buf) (d : Dev) (hpending : d.wt.pending = pending)
    (hcnt : d.wt.submitCnt = d.wt.submit.length) (h : Metered g d.rd d.wt d.stat) :
    Metered g (submitWriteLoop g pending d).rd (submitWriteLoop g pending d).wt
      (submitWriteLoop g pending d).stat := by
  induction pending generalizing d with
  | nil => exact h
  | cons b pending ih =>
    rw [submitWriteLoop]
    split
    case isTrue hroom =>
      refine ih _ rfl ?_ (h.submitWrite hpending (by omega) g.wtPhys)
      simp [Side.post, hcnt]
    case isFalse => exact h

theorem metered_completeReads {blks : List Bytes} {d d' : Dev}
    (hdepth : d.rd.submit.length ≤ rdFifoDepth)
    (hnr : d.rd.submit.length + d.rd.pending.length ≤ g.rdBufNr)
    (h : Metered g d.rd d.wt d.stat) (heq : completeReads blks d = some d') :
    Metered g d'.rd d'.wt d'.stat := by
  induction blks generalizing d with
  | nil =>
    cases heq
    exact h
  | cons blk blks ih =>
    rw [completeReads] at heq
    split at heq
    · cases heq
    · rename_i b rest hsubmit
      have hlen : d.rd.submit.length = rest.length + 1 := by rw [hsubmit, List.length_cons]
      refine ih ?_ ?_ (h.completeRead hsubmit hdepth (by omega) _) heq
      · simp only
        omega
      · simp only [List.length_append, List.length_singleton]
        omega

theorem metered_completeWrites {n : Nat} {d d' : Dev} (h : Metered g d.rd d.wt d.stat)
    (heq : completeWrites n d = some d') : Metered g d'.rd d'.wt d'.stat := by
  induction n generalizing d with
  | zero =>
    cases heq
    exact h
  | succ n ih =>
    rw [completeWrites] at heq
    split at heq
    · cases heq
    · rename_i b rest hsubmit
      exact ih (h.completeWrite hsubmit) heq

theorem metered_notifyReads {blks : List Bytes} {d d' : Dev}
    (hdepth : d.rd.submit.length ≤ rdFifoDepth)
    (hnr : d.rd.submit.length + d.rd.pending.length ≤ g.rdBufNr)
    (h : Metered g d.rd d.wt d.stat) (heq : notifyReads g blks d = some d') :
    Metered g d'.rd d'.wt d'.stat := by
  unfold notifyReads at heq
  split at heq
  · cases heq
    exact h
  · obtain ⟨e, he, rfl⟩ := Option.map_eq_some_iff.mp heq
    have hdone := metered_completeReads hdepth hnr h he
    exact metered_tryToSubmitRead _ { hdone with }

theorem metered_notifyWrites {n : Nat} {d d' : Dev} (hf : d.wt.Fifo g.wtPhys)
    (hn : n ≤ d.wt.submit.length) (h : Metered g d.rd d.wt d.stat)
    (heq : notifyWrites g n d = some d') : Metered g d'.rd d'.wt d'.stat := by
  unfold notifyWrites at heq
  split at heq
  · cases heq
    exact h
  · obtain ⟨e, he, rfl⟩ := Option.map_eq_some_iff.mp heq
    have hdone := metered_completeWrites h he
    have hcnt := hf.cnt
    obtain ⟨st, hclosed⟩ := completeWrites_eq n d hn
    obtain rfl := Option.some.inj (he.symm.trans hclosed)
    unfold tryToSubmitWriteNolock
    split
    · refine metered_submitWriteLoop _ _ rfl ?_ { hdone with }
      simp only [List.length_drop]
      omega
    · exact { hdone with }

end Dev

/-! ## Every step -/

def Within (nr : Nat) (L : List Buf) (H : Pid → Option Buf) : Prop :=
  ∀ b, (b ∈ L ∨ ∃ p, H p = some b) → b < nr

namespace Within
variable {nr : Nat} {L L' : List Buf} {H H' : Pid → Option Buf} {p : Pid} {b : Buf}

theorem of_covers (h : Within nr L H)
    (hkept : ∀ {U : Buf → Prop}, Covers U L H → Covers U L' H') : Within nr L' H' := by
  intro c hc
  have hsame : Covers (fun c => c ∈ L ∨ ∃ p, H p = some c) L H := fun _ => Iff.rfl
  exact h c ((hkept hsame c).mpr hc)

theorem drop (h : Within nr L H) : Within nr L (Function.update H p none) := by
  intro c hc
  refine h c (hc.imp_right ?_)
  rintro ⟨q, hq⟩
  by_cases hqp : q = p
  · subst q
    simp at hq
  · exact ⟨q, by rwa [Function.update_of_ne hqp] at hq⟩

theorem subset_range (h : Within nr L H) : L ⊆ List.range nr :=
  fun c hc => List.mem_range.mpr (h c (.inl hc))

theorem length_le (h : Within nr L H) (hex : Exclusive L H) : L.length ≤ nr := by
  simpa using hex.length_le h.subset_range

theorem length_lt (h : Within nr L H) (hex : Exclusive L H) (hp : H p = some b) : L.length < nr := by
  have hb : b ∈ List.range nr := List.mem_range.mpr (h b (.inr ⟨p, hp⟩))
  simpa using hex.length_lt h.subset_range hp hb

theorem range (hH : ∀ p, H p = none) : Within nr (List.range nr) H := by
  rintro c (hc | ⟨p, hp⟩)
  · exact List.mem_range.mp hc
  · rw [hH p] at hp
    cases hp

end Within

/-- The statistics together with what bounds the lists they count. -/
structure Gauged (g : Geometry) (d : Dev) : Prop where
  fifos : Fifos g d
  disjoint : Disjoint d
  rdWithin : Within g.rdBufNr d.rd.listed d.rdHeld
  wtWithin : Within g.wtBufNr d.wt.listed d.wtHeld
  metered : Metered g d.rd d.wt d.stat

namespace Gauged
variable {g : Geometry} {d : Dev} {p : Pid} {b : Buf}

theorem rd_lengths (h : Gauged g d) :
    d.rd.free.length + d.rd.submit.length + d.rd.pending.length ≤ g.rdBufNr := by
  have hle := h.rdWithin.length_le h.disjoint.rd
  simpa only [Side.listed, List.length_append] using hle

theorem wt_lengths (h : Gauged g d) :
    d.wt.free.length + d.wt.submit.length + d.wt.pending.length ≤ g.wtBufNr := by
  have hle := h.wtWithin.length_le h.disjoint.wt
  simpa only [Side.listed, List.length_append] using hle

theorem rd_room (h : Gauged g d) (hp : d.rdHeld p = some b) :
    d.rd.pending.length + 1 ≤ g.rdBufNr := by
  have hlt := h.rdWithin.length_lt h.disjoint.rd hp
  simp only [Side.listed, List.length_append] at hlt
  omega

theorem wt_room (h : Gauged g d) (hp : d.wtHeld p = some b) :
    d.wt.pending.length + 1 ≤ g.wtBufNr := by
  have hlt := h.wtWithin.length_lt h.disjoint.wt hp
  simp only [Side.listed, List.length_append] at hlt
  omega

theorem tryRead (h : Gauged g d) :
    Metered g (d.tryRead p).rd (d.tryRead p).wt (d.tryRead p).stat := by
  unfold Dev.tryRead
  split
  case h_1 b rest hpending => exact h.metered.takeRead hpending
  case h_2 => exact h.metered

theorem tryWrite (h : Gauged g d) :
    Metered g (d.tryWrite p).rd (d.tryWrite p).wt (d.tryWrite p).stat := by
  unfold Dev.tryWrite
  split
  case h_1 b rest hfree => exact h.metered.takeWrite hfree
  case h_2 => exact h.metered

theorem commitWrite (h : Gauged g d) (hp : d.wtHeld p = some b) :
    Metered g (d.commitWrite g p b).rd (d.commitWrite g p b).wt (d.commitWrite g p b).stat := by
  have hcnt := h.fifos.wt.cnt
  unfold Dev.commitWrite
  split
  · exact h.metered
  · split
    case isTrue hroom => exact h.metered.postWrite (by omega) g.wtPhys
    case isFalse => exact h.metered.pendWrite (h.wt_room hp)

theorem rdStep (h : Gauged g d) (bn : Bounce) (copyOk sig : Bool) :
    Metered g (d.rdStep g bn p copyOk sig).2.rd (d.rdStep g bn p copyOk sig).2.wt
      (d.rdStep g bn p copyOk sig).2.stat := by
  have hheld : d.rdHeld p = (d.readers p).pc.held := rfl
  unfold Dev.rdStep
  cases hpc : (d.readers p).pc <;> rw [hpc] at hheld <;> dsimp only
  case tryRead => exact h.tryRead
  case requeue b => exact h.metered.requeueRead (h.rd_room hheld)
  case release b => exact h.metered.releaseRead
  case submit => exact metered_tryToSubmitRead d h.metered
  case relock =>
    split
    · exact h.tryRead
    · exact h.metered
  case bounceCopy | copyUser => split <;> exact h.metered
  case asleep =>
    split
    · exact h.metered
    · split <;> exact h.metered
  all_goals exact h.metered

theorem wtStep (h : Gauged g d) (copied : Option Bytes) (sig : Bool) :
    Metered g (d.wtStep g p copied sig).rd (d.wtStep g p copied sig).wt
      (d.wtStep g p copied sig).stat := by
  have hheld : d.wtHeld p = (d.writers p).pc.held := rfl
  unfold Dev.wtStep
  cases hpc : (d.writers p).pc <;> rw [hpc] at hheld <;> dsimp only
  case tryWrite => exact h.tryWrite
  case requeue b => exact h.metered.requeueWrite
  case commit b => exact h.commitWrite hheld
  case copyUser b =>
    split
    · exact { h.metered with }
    · exact h.metered
  case relock =>
    split
    · exact h.tryWrite
    · exact h.metered
  case asleep =>
    split
    · exact h.metered
    · split <;> exact h.metered
  all_goals exact h.metered

theorem isrStep {d' : Dev} {blks : List Bytes} {n : Nat} (h : Gauged g d)
    (hstep : d.isrStep g p blks n = some d') : Metered g d'.rd d'.wt d'.stat := by
  cases isrStep_halves h.fifos.rd h.fifos.wt hstep with
  | idle _ eq | off _ _ eq | wakeRd _ _ eq | wakeWt _ eq =>
    rw [eq]
    exact h.metered
  | notify _ _ reads writes _ c e first wt second eq =>
    have hlen := h.rd_lengths
    have hmid := metered_notifyReads h.fifos.rd.depth (by omega) h.metered first
    have hdone := metered_notifyWrites (wt ▸ h.fifos.wt) (wt ▸ writes) hmid second
    rw [eq]
    exact hdone

theorem ctlStep (h : Gauged g d) (hre : ¬ Rebuilds d p) (resetOk : Bool) :
    Metered g (d.ctlStep g p resetOk).rd (d.ctlStep g p resetOk).wt
      (d.ctlStep g p resetOk).stat := by
  unfold Dev.ctlStep
  cases hpc : d.ctls p <;> dsimp only
  case startInit k => exact absurd (.inl ⟨k, hpc⟩) hre
  case ctrlInit => exact absurd (.inr hpc) hre
  case startSubmit => exact metered_tryToSubmitRead d h.metered
  case stopCheck => split <;> exact h.metered
  all_goals exact h.metered

end Gauged

variable {g : Geometry} {bn bn' : Bounce} {d d' : Dev} {l : Label}

theorem step_metered (hstep : step g bn d l = some (bn', d')) (hre : ¬ RebuildStep d l)
    (h : Gauged g d) : Metered g d'.rd d'.wt d'.stat := by
  cases step_cases hstep with
  | rdStep p copyOk sig => exact h.rdStep bn copyOk sig
  | wtStep p copied sig => exact h.wtStep copied sig
  | isrStep p blks n _ he => exact h.isrStep he
  | ctlStep p resetOk => exact h.ctlStep hre resetOk
  | _ => exact h.metered

theorem step_gauged (hstep : step g bn d l = some (bn', d')) (hre : ¬ RebuildStep d l)
    (h : Gauged g d) : Gauged g d' := by
  have hfifos := step_fifos hstep h.fifos
  have hdisjoint := step_disjoint hstep (fun hyes => absurd hyes hre) h.fifos h.disjoint
  have hmetered := step_metered hstep hre h
  cases step_pools hstep hre h.fifos with
  | rd p move wt wtHeld =>
    refine ⟨hfifos, hdisjoint, h.rdWithin.of_covers move.covers, ?_, hmetered⟩
    rw [wt, wtHeld]
    exact h.wtWithin
  | wt p move rd rdHeld =>
    refine ⟨hfifos, hdisjoint, by rw [rd, rdHeld]; exact h.rdWithin, ?_, hmetered⟩
    rcases move.covers_or_lost with hkept | ⟨_, hwt, hheld⟩
    · exact h.wtWithin.of_covers hkept
    · rw [hwt, hheld]
      exact h.wtWithin.drop
  | perm rd wt rdHeld wtHeld =>
    refine ⟨hfifos, hdisjoint, ?_, ?_, hmetered⟩
    · rw [rdHeld]
      exact h.rdWithin.of_covers fun hcov => hcov.perm rd
    · rw [wtHeld]
      exact h.wtWithin.of_covers fun hcov => hcov.perm wt

theorem Starts.gauged {d₀ : Dev} (h : Starts g d₀ d) (hempty : d₀.EmptyHanded) : Gauged g d := by
  have hsound := h.sound hempty
  refine ⟨hsound.fifos, hsound.disjoint, fun b hb => (hsound.covered.rd b).mpr hb,
    fun b hb => (hsound.covered.wt b).mpr hb, ?_⟩
  obtain ⟨p, k, hp, -, rfl⟩ := h
  unfold ctlStep
  rw [hp]
  dsimp only
  rw [listInit_eq]
  exact .fresh g d₀.rd.mem d₀.wt.mem

/-! ## What is reported -/

/-- Fewer than `2 ^ 32` samples were taken of each gauge. -/
structure FewSamples (t : Stat) : Prop where
  rdFifo : t.rdFifoCnt < 2 ^ 32
  rdPending : t.rdPendingCnt < 2 ^ 32
  wtFifo : t.wtFifoCnt < 2 ^ 32
  wtPending : t.wtPendingCnt < 2 ^ 32

structure Gauges (d : Dev) : Prop where
  rdFree : d.stat.rdFree = d.rd.free.length
  rdSubmit : d.stat.rdSubmit = d.rd.submit.length
  rdPending : d.stat.rdPending = d.rd.pending.length
  wtFree : d.stat.wtFree = d.wt.free.length
  wtSubmit : d.stat.wtSubmit = d.wt.submit.length
  wtPending : d.stat.wtPending = d.wt.pending.length

/-- Every block of `pdma_get_stat` is defined, and its percentages are in order. -/
structure Reported (g : Geometry) (t : Stat) : Prop where
  rdFifo : t.rdFifoSeries.Defined
  rdPending : (t.rdPendingSeries g).Defined
  wtFifo : t.wtFifoSeries.Defined
  wtPending : (t.wtPendingSeries g).Defined
  rdFifoMin : (t.getStat g).rdFifoMin ≤ (t.getStat g).rdFifoAvg
  rdFifoAvg : (t.getStat g).rdFifoAvg ≤ 100
  rdPendingAvg : (t.getStat g).rdPendingAvg ≤ (t.getStat g).rdPendingMax
  rdPendingMax : (t.getStat g).rdPendingMax ≤ 100
  wtFifoAvg : (t.getStat g).wtFifoAvg ≤ (t.getStat g).wtFifoMax
  wtFifoMax : (t.getStat g).wtFifoMax ≤ 100
  wtPendingAvg : (t.getStat g).wtPendingAvg ≤ (t.getStat g).wtPendingMax
  wtPendingMax : (t.getStat g).wtPendingMax ≤ 100

/-- The words of a block are its numbers as long as these are small. -/
theorem Series.Holds.of_between {total cnt lo hi extreme cur : Int} {nr : Nat}
    (h : Between total cnt lo hi) (hlo : 0 ≤ lo) (hhi : hi ≤ nr) (hcnt : cnt < 2 ^ 32)
    (hnr : 100 * nr < 2 ^ 32) (hextreme : 0 ≤ extreme ∧ extreme ≤ nr) (hcur : 0 ≤ cur ∧ cur ≤ nr) :
    Series.Holds { total := .ofInt total, cnt := .ofInt cnt, extreme := .ofInt extreme
                   cur := .ofInt cur, depth := .ofNat nr } total cnt extreme cur nr := by
  have hcnt0 := h.cnt_nonneg
  have htotal := (h.widen (.inr (le_refl lo)) (.inr hhi)).total_le_of_cnt_le
    (le_of_lt hcnt) (Int.natCast_nonneg nr)
  have htotal0 : 0 ≤ total := (Int.mul_nonneg hcnt0 hlo).trans h.le_total
  refine ⟨toNat_ofInt64 htotal0 ?_, toNat_ofInt64 hcnt0 ?_, toNat_ofInt32 hextreme.1 ?_,
    toNat_ofInt32 hcur.1 ?_, ?_⟩
  · omega
  · omega
  · omega
  · omega
  · simp only [UInt32.toNat_ofNat']
    omega

theorem Peak.reported {total cnt max cur : Int} {nr : Nat} (h : Peak total cnt max cur nr)
    (hcnt : cnt < 2 ^ 32) (hpos : 1 ≤ nr) (hnr : 100 * nr < 2 ^ 32) (hcur : 0 ≤ cur ∧ cur ≤ nr)
    {s : Series} (hs : s = { total := .ofInt total, cnt := .ofInt cnt, extreme := .ofInt max
                             cur := .ofInt cur, depth := .ofNat nr }) :
    s.Defined ∧ s.avgPct ≤ s.extremePct ∧ s.extremePct ≤ 100 := by
  have hholds := Series.Holds.of_between h.between (le_refl 0) h.max_le hcnt hnr
    ⟨h.max_nonneg, h.max_le⟩ hcur
  rw [hs]
  exact h.block hholds (by omega) (by omega) hcur.2

theorem Floor.reported {total cnt min cur : Int} {nr : Nat} (h : Floor total cnt min nr)
    (hcnt : cnt < 2 ^ 32) (hpos : 1 ≤ nr) (hnr : 100 * nr < 2 ^ 32) (hcur : 0 ≤ cur ∧ cur ≤ nr)
    {s : Series} (hs : s = { total := .ofInt total, cnt := .ofInt cnt, extreme := .ofInt min
                             cur := .ofInt cur, depth := .ofNat nr }) :
    s.Defined ∧ s.extremePct ≤ s.avgPct ∧ s.avgPct ≤ 100 := by
  have hholds := Series.Holds.of_between h.between h.min_nonneg (le_refl _) hcnt hnr
    ⟨h.min_nonneg, h.min_le⟩ hcur
  rw [hs]
  exact h.block hholds (by omega) (by omega) hcur.1 hcur.2

theorem Gauged.gauges (h : Gauged g d) : Gauges d :=
  { h.metered with }

theorem Gauged.reported (h : Gauged g d) (hrd : 1 ≤ g.rdBufNr ∧ 100 * g.rdBufNr < 2 ^ 32)
    (hwt : 1 ≤ g.wtBufNr ∧ 100 * g.wtBufNr < 2 ^ 32) (hfew : FewSamples d.stat) :
    Reported g d.stat := by
  have hgauges := h.gauges
  have hrdLen := h.rd_lengths
  have hwtLen := h.wt_lengths
  have hrdDepth := h.fifos.rd.depth
  have hwtDepth : d.wt.submit.length ≤ wtFifoDepth := h.fifos.wt.depth
  have hrdSubmit := hgauges.rdSubmit
  have hrdPending := hgauges.rdPending
  have hwtSubmit := hgauges.wtSubmit
  have hwtPending := hgauges.wtPending
  have hrdFifo := h.metered.rdFifo.reported hfew.rdFifo (by decide) (by decide)
    (by omega) (s := d.stat.rdFifoSeries) rfl
  have hrdPend := h.metered.rdPend.reported hfew.rdPending hrd.1 hrd.2
    (by omega) (s := d.stat.rdPendingSeries g) rfl
  have hwtFifo := h.metered.wtFifo.reported hfew.wtFifo (by decide) (by decide)
    (by omega) (s := d.stat.wtFifoSeries) rfl
  have hwtPend := h.metered.wtPend.reported hfew.wtPending hwt.1 hwt.2
    (by omega) (s := d.stat.wtPendingSeries g) rfl
  exact {
    rdFifo := hrdFifo.1
    rdPending := hrdPend.1
    wtFifo := hwtFifo.1
    wtPending := hwtPend.1
    rdFifoMin := hrdFifo.2.1
    rdFifoAvg := hrdFifo.2.2
    rdPendingAvg := hrdPend.2.1
    rdPendingMax := hrdPend.2.2
    wtFifoAvg := hwtFifo.2.1
    wtFifoMax := hwtFifo.2.2
    wtPendingAvg := hwtPend.2.1
    wtPendingMax := hwtPend.2.2 }

theorem Starts.no_rebuild {geo : Nat → Geometry} {i : Nat} {d₀ : Dev} {s : Driver}
    {ls : List (Nat × Label)} (h : Starts (geo i) d₀ (s.dev i))
    (hls : Machine.Along (Driver.step geo) (fun _ l => l.1 = i → l.2.isCtlCall = false) s ls) :
    Machine.Along (Driver.step geo) (fun s l => l.1 = i → ¬ RebuildStep (s.dev i) l.2) s ls := by
  refine Driver.along_of_invariant (I := fun d => Running d ∧ Fifos (geo i) d)
    (C := fun _ _ l => l.isCtlCall = false) (D := fun _ d l => ¬ RebuildStep d l) ?_ ?_
    ⟨h.running, h.fifos⟩ hls
  · rintro bn d l bn' d' ⟨hrun, hfifos⟩ hl hstep
    exact ⟨step_running hl hstep hfifos hrun, step_fifos hstep hfifos⟩
  · rintro bn d l ⟨hrun, _⟩ _
    exact hrun.no_rebuild l

/-- From a start that found no call in progress up to the next rebuild of the lists, in any
run of the module: at every point between two critical sections the gauges are the lengths
of their lists, and `pdma_get_stat` reports sound numbers. -/
theorem statistics_sound {geo : Nat → Geometry} {i : Nat} {d₀ : Dev} {s t : Driver}
    {ls : List (Nat × Label)} (hrd : 1 ≤ (geo i).rdBufNr ∧ 100 * (geo i).rdBufNr < 2 ^ 32)
    (hwt : 1 ≤ (geo i).wtBufNr ∧ 100 * (geo i).wtBufNr < 2 ^ 32)
    (hstart : Starts (geo i) d₀ (s.dev i)) (hcalls : NoCalls d₀)
    (hls : Machine.Along (Driver.step geo) (fun s l => l.1 = i → ¬ RebuildStep (s.dev i) l.2) s ls)
    (hrun : Machine.exec (Driver.step geo) s ls = some t) (hfew : FewSamples (t.dev i).stat) :
    Gauges (t.dev i) ∧ Reported (geo i) (t.dev i).stat := by
  have hgauged : Gauged (geo i) (t.dev i) :=
    Driver.invariant_along (C := fun _ d l => ¬ RebuildStep d l)
      (fun h hre hstep => step_gauged hstep hre h) (hstart.gauged hcalls.emptyHanded) hls hrun
  exact ⟨hgauged.gauges, hgauged.reported hrd hwt hfew⟩

theorem statistics_sound_one_read :
    let d₀ := (Dev.init smallCard).setCtl 0 (.startInit .ioctl)
    let s : Driver := ⟨{}, fun _ => d₀.ctlStep smallCard 0 true⟩
    ∃ t, Machine.exec (Driver.step fun _ => smallCard) s
        ([(0, .ctlStep 0 true), (0, .isrCall 0), (0, .isrStep 0 [List.replicate 4096 7] 0),
          (0, .rdCall 1 4096 false)] ++ List.replicate 11 (0, .rdStep 1 true false)) = some t ∧
      (t.dev 0).stat.rdFifoCnt = 1 ∧ Gauges (t.dev 0) ∧ Reported smallCard (t.dev 0).stat := by
  intro d₀ s
  have hstart : Starts smallCard d₀ (s.dev 0) :=
    ⟨0, .ioctl, rfl, fun q hq => Function.update_of_ne hq _ _, rfl⟩
  refine Machine.exists_end_view _ (fun t : Driver => ((t.dev 0).stat.rdFifoCnt,
      (t.dev 0).stat.rdPendingCnt, (t.dev 0).stat.wtFifoCnt, (t.dev 0).stat.wtPendingCnt))
    (v := (1, 1, 0, 0)) (by decide +kernel) fun t hrun hcnt => ?_
  simp only [Prod.mk.injEq] at hcnt
  obtain ⟨hrdFifo, hrdPend, hwtFifo, hwtPend⟩ := hcnt
  have hfew : FewSamples (t.dev 0).stat := ⟨by omega, by omega, by omega, by omega⟩
  refine ⟨hrdFifo, @statistics_sound (fun _ => smallCard) 0 _ _ _ _ ?_ ?_ hstart
    ⟨fun _ => rfl, fun _ => rfl⟩ (@Starts.no_rebuild (fun _ => smallCard) 0 _ _ _ hstart ?_) hrun hfew⟩
  · decide
  · decide
  · apply Machine.along_of_forall
    decide

end PdmaXen.Pdma
