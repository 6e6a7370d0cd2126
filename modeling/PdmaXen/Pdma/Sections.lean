import PdmaXen.Pdma.Device

/-!
# What the critical sections do to the lists

Closed forms of the submit loops, the completion loops and the list building
loops. Later modules use these equations and never unfold a loop again.
-/

namespace PdmaXen.Pdma
set_option autoImplicit false

/-- The hardware view of one direction agrees with the driver's. -/
structure Side.Fifo (s : Side) (phys : Buf → DmaAddr) : Prop where
  cnt : s.submitCnt = s.submit.length
  depth : s.submit.length ≤ rdFifoDepth
  order : s.submit.map phys = s.posted.drop s.done
  reported : s.done ≤ s.posted.length

/-- `n` buffers of `src` go to the tail of the submit list and to the hardware. -/
def Side.postTake (s : Side) (phys : Buf → DmaAddr) (src : List Buf) (n : Nat) : Side :=
  { s with
    submit := s.submit ++ src.take n
    submitCnt := s.submitCnt + n
    posted := s.posted ++ (src.take n).map phys }

/-- The first `n` submitted buffers are reported complete. -/
def Side.reap (s : Side) (n : Nat) : Side :=
  { s with
    submit := s.submit.drop n
    submitCnt := s.submitCnt - n
    done := s.done + n }

namespace Side
variable {s : Side} {phys : Buf → DmaAddr} {src : List Buf} {b : Buf} {n : Nat}

theorem Fifo.in_flight (h : s.Fifo phys) : s.posted.length - s.done = s.submit.length := by
  have hlen := congrArg List.length h.order
  rw [List.length_map, List.length_drop] at hlen
  omega

theorem Fifo.postTake (h : s.Fifo phys) (hsrc : n ≤ src.length)
    (hn : n = 0 ∨ s.submitCnt + n ≤ rdFifoDepth) : (s.postTake phys src n).Fifo phys := by
  have hcnt := h.cnt
  have hdepth := h.depth
  have hdone := h.reported
  refine ⟨?_, ?_, ?_, ?_⟩
  · simp [Side.postTake, hcnt, hsrc]
  · simp only [Side.postTake, List.length_append, List.length_take, Nat.min_eq_left hsrc]
    omega
  · simp only [Side.postTake, List.map_append, h.order]
    rw [List.drop_append_of_le_length hdone]
  · simp only [Side.postTake, List.length_append]
    omega

theorem Fifo.post (h : s.Fifo phys) (hroom : s.submitCnt < wtFifoDepth) : (s.post phys b).Fifo phys := by
  have heq : s.post phys b = s.postTake phys [b] 1 := by
    simp [Side.post, Side.postTake, fifoWord_submitWords]
  rw [heq]
  exact h.postTake (Nat.le_refl _) (.inr (by simp only [wtFifoDepth, rdFifoDepth] at *; omega))

theorem Fifo.reap (h : s.Fifo phys) (hn : n ≤ s.submit.length) : (s.reap n).Fifo phys := by
  have hcnt := h.cnt
  have hdepth := h.depth
  have hflight := h.in_flight
  have hdone := h.reported
  refine ⟨?_, ?_, ?_, ?_⟩
  · simp only [Side.reap, List.length_drop]
    omega
  · simp only [Side.reap, List.length_drop]
    omega
  · simp only [Side.reap, List.map_drop, h.order, List.drop_drop]
  · simp only [Side.reap]
    omega

theorem Fifo.congr {s' : Side} (h : s.Fifo phys) (hsubmit : s'.submit = s.submit)
    (hcnt : s'.submitCnt = s.submitCnt) (hposted : s'.posted = s.posted) (hdone : s'.done = s.done) :
    s'.Fifo phys := by
  refine ⟨?_, ?_, ?_, ?_⟩
  · rw [hcnt, hsubmit, h.cnt]
  · rw [hsubmit]
    exact h.depth
  · rw [hsubmit, hposted, hdone, h.order]
  · rw [hposted, hdone]
    exact h.reported

theorem fifo_empty {free : List Buf} {mem : Buf → Bytes} :
    Fifo { free := free, mem := mem } phys :=
  ⟨rfl, Nat.zero_le _, rfl, Nat.le_refl _⟩

end Side

namespace Dev
variable (g : Geometry)

theorem submitReadLoop_eq (free : List Buf) (d : Dev) (hfree : d.rd.free = free) :
    ∃ n st, n ≤ free.length ∧ (n = 0 ∨ d.rd.submitCnt + n ≤ rdFifoDepth) ∧
      (n = free.length ∨ rdFifoDepth ≤ d.rd.submitCnt + n) ∧
      submitReadLoop g free d =
        { d with rd := { d.rd.postTake g.rdPhys free n with free := free.drop n }, stat := st } := by
  induction free generalizing d with
  | nil =>
    have hself : { d with rd := { d.rd with free := [] } } = d := by rw [← hfree]
    refine ⟨0, d.stat, Nat.le_refl _, .inl rfl, .inl rfl, ?_⟩
    simp [submitReadLoop, Side.postTake, hself]
  | cons b free ih =>
    by_cases hlt : d.rd.submitCnt < rdFifoDepth
    · obtain ⟨n, st, hn, hroom, hstop, heq⟩ := ih
        { d with
          rd := { d.rd with free := free }.post g.rdPhys b
          stat := d.stat.rdFreeDec.rdSubmitInc } rfl
      simp only [Side.post] at hroom hstop
      refine ⟨n + 1, st, by simpa using hn, .inr ?_, ?_, ?_⟩
      · push_cast
        omega
      · simp only [List.length_cons]
        push_cast
        omega
      · rw [submitReadLoop, if_pos hlt, heq]
        simp [Side.postTake, Side.post, fifoWord_submitWords, Int.add_assoc, Int.add_comm 1]
    · refine ⟨0, d.stat, Nat.zero_le _, .inl rfl, .inr (by push_cast; omega), ?_⟩
      rw [submitReadLoop, if_neg hlt]
      simp [Side.postTake, ← hfree]

/-- The read submit routine moves a prefix of `rd_free`, and while DMA is enabled
it stops only at an empty list or a full FIFO. -/
theorem tryToSubmitReadNolock_eq (d : Dev) :
    ∃ n st, n ≤ d.rd.free.length ∧ (n = 0 ∨ d.rd.submitCnt + n ≤ rdFifoDepth) ∧
      (d.dmaEnable = true → n = d.rd.free.length ∨ rdFifoDepth ≤ d.rd.submitCnt + n) ∧
      tryToSubmitReadNolock g d =
        { d with
          rd := { d.rd.postTake g.rdPhys d.rd.free n with free := d.rd.free.drop n }
          stat := st } := by
  unfold tryToSubmitReadNolock
  by_cases hen : d.dmaEnable = true
  · obtain ⟨n, st, hn, hroom, hstop, heq⟩ := submitReadLoop_eq g d.rd.free d rfl
    exact ⟨n, st, hn, hroom, fun _ => hstop, by rw [if_pos hen, heq]⟩
  · exact ⟨0, d.stat, Nat.zero_le _, .inl rfl, fun h => absurd h hen,
      by rw [if_neg hen]; simp [Side.postTake]⟩

theorem submitWriteLoop_eq (pending : List Buf) (d : Dev) (hpend : d.wt.pending = pending) :
    ∃ n st, n ≤ pending.length ∧ (n = 0 ∨ d.wt.submitCnt + n ≤ wtFifoDepth) ∧
      (n = pending.length ∨ wtFifoDepth ≤ d.wt.submitCnt + n) ∧
      submitWriteLoop g pending d =
        { d with
          wt := { d.wt.postTake g.wtPhys pending n with pending := pending.drop n }
          stat := st } := by
  induction pending generalizing d with
  | nil =>
    have hself : { d with wt := { d.wt with pending := [] } } = d := by rw [← hpend]
    refine ⟨0, d.stat, Nat.le_refl _, .inl rfl, .inl rfl, ?_⟩
    simp [submitWriteLoop, Side.postTake, hself]
  | cons b pending ih =>
    by_cases hlt : d.wt.submitCnt < wtFifoDepth
    · obtain ⟨n, st, hn, hroom, hstop, heq⟩ := ih
        { d with
          wt := { d.wt with pending := pending }.post g.wtPhys b
          stat := d.stat.wtPendingDec.wtSubmitInc } rfl
      simp only [Side.post] at hroom hstop
      refine ⟨n + 1, st, by simpa using hn, .inr ?_, ?_, ?_⟩
      · push_cast
        omega
      · simp only [List.length_cons]
        push_cast
        omega
      · rw [submitWriteLoop, if_pos hlt, heq]
        simp [Side.postTake, Side.post, fifoWord_submitWords, Int.add_assoc, Int.add_comm 1]
    · refine ⟨0, d.stat, Nat.zero_le _, .inl rfl, .inr (by push_cast; omega), ?_⟩
      rw [submitWriteLoop, if_neg hlt]
      simp [Side.postTake, ← hpend]

theorem tryToSubmitWriteNolock_eq (d : Dev) :
    ∃ n st, n ≤ d.wt.pending.length ∧ (n = 0 ∨ d.wt.submitCnt + n ≤ wtFifoDepth) ∧
      (d.dmaEnable = true → n = d.wt.pending.length ∨ wtFifoDepth ≤ d.wt.submitCnt + n) ∧
      tryToSubmitWriteNolock g d =
        { d with
          wt := { d.wt.postTake g.wtPhys d.wt.pending n with pending := d.wt.pending.drop n }
          stat := st } := by
  unfold tryToSubmitWriteNolock
  by_cases hen : d.dmaEnable = true
  · obtain ⟨n, st, hn, hroom, hstop, heq⟩ := submitWriteLoop_eq g d.wt.pending d rfl
    exact ⟨n, st, hn, hroom, fun _ => hstop, by rw [if_pos hen, heq]⟩
  · exact ⟨0, d.stat, Nat.zero_le _, .inl rfl, fun h => absurd h hen,
      by rw [if_neg hen]; simp [Side.postTake]⟩

theorem completeReads_eq (blks : List Bytes) (d : Dev) (hlen : blks.length ≤ d.rd.submit.length) :
    ∃ mem st, (∀ b ∉ d.rd.submit.take blks.length, mem b = d.rd.mem b) ∧
      (d.rd.submit.Nodup → (d.rd.submit.take blks.length).map mem = blks) ∧
      completeReads blks d = some
        { d with
          rd := { d.rd with
            submit := d.rd.submit.drop blks.length
            pending := d.rd.pending ++ d.rd.submit.take blks.length
            mem := mem }
          stat := st } := by
  induction blks generalizing d with
  | nil => exact ⟨d.rd.mem, d.stat, by simp, by simp, by simp [completeReads]⟩
  | cons blk blks ih =>
    cases hsub : d.rd.submit with
    | nil => simp [hsub] at hlen
    | cons b rest =>
      rw [hsub, List.length_cons, List.length_cons] at hlen
      obtain ⟨mem, st, hkeep, hmap, heq⟩ := ih
        { d with
          rd := { d.rd with
            submit := rest
            pending := d.rd.pending ++ [b]
            mem := Function.update d.rd.mem b blk }
          stat := d.stat.rdSubmitDec.rdPendingInc } (by simpa using hlen)
      simp only at hkeep hmap heq
      refine ⟨mem, st, ?_, ?_, ?_⟩
      · intro c hc
        simp only [List.length_cons, List.take_succ_cons, List.mem_cons, not_or] at hc
        rw [hkeep c hc.2, Function.update_of_ne hc.1]
      · intro hnodup
        obtain ⟨hb, hrest⟩ := List.nodup_cons.mp hnodup
        have hbt : b ∉ rest.take blks.length := fun hm => hb (List.mem_of_mem_take hm)
        simp only [List.length_cons, List.take_succ_cons, List.map_cons, hmap hrest, hkeep b hbt,
          Function.update_self]
      · simp [completeReads, hsub, heq]

theorem completeWrites_eq (n : Nat) (d : Dev) (hlen : n ≤ d.wt.submit.length) :
    ∃ st, completeWrites n d = some
      { d with
        wt := { d.wt with
          submit := d.wt.submit.drop n
          free := d.wt.free ++ d.wt.submit.take n }
        stat := st } := by
  induction n generalizing d with
  | zero => exact ⟨d.stat, by simp [completeWrites]⟩
  | succ n ih =>
    cases hsub : d.wt.submit with
    | nil => simp [hsub] at hlen
    | cons b rest =>
      rw [hsub, List.length_cons] at hlen
      obtain ⟨st, heq⟩ := ih
        { d with
          wt := { d.wt with submit := rest, free := d.wt.free ++ [b] }
          stat := d.stat.wtSubmitDec.wtFreeInc } (by simpa using hlen)
      exact ⟨st, by simp [completeWrites, hsub, heq]⟩

theorem notifyReads_eq (blks : List Bytes) (d : Dev) (hlen : blks.length ≤ d.rd.submit.length) :
    ∃ n mem st, n ≤ d.rd.free.length ∧
      (n = 0 ∨ d.rd.submitCnt - blks.length + n ≤ rdFifoDepth) ∧
      (blks ≠ [] → d.dmaEnable = true →
        n = d.rd.free.length ∨ rdFifoDepth ≤ d.rd.submitCnt - blks.length + n) ∧
      (∀ b ∉ d.rd.submit.take blks.length, mem b = d.rd.mem b) ∧
      (d.rd.submit.Nodup → (d.rd.submit.take blks.length).map mem = blks) ∧
      notifyReads g blks d = some
        { d with
          rd := { (d.rd.reap blks.length).postTake g.rdPhys d.rd.free n with
            free := d.rd.free.drop n
            pending := d.rd.pending ++ d.rd.submit.take blks.length
            mem := mem }
          stat := st
          hist := { d.hist with completed := d.hist.completed ++ blks } } := by
  unfold notifyReads
  by_cases hzero : blks.length = 0
  · obtain rfl : blks = [] := List.length_eq_zero_iff.mp hzero
    refine ⟨0, d.rd.mem, d.stat, Nat.zero_le _, .inl rfl, by simp, by simp, by simp, ?_⟩
    simp [Side.reap, Side.postTake]
  · obtain ⟨mem, st, hkeep, hmap, heq⟩ := completeReads_eq blks d hlen
    rw [if_neg hzero, heq, Option.map_some]
    obtain ⟨n, st', hn, hroom, hstop, heq'⟩ := tryToSubmitReadNolock_eq g
      { d with
        rd := { d.rd with
          submit := d.rd.submit.drop blks.length
          pending := d.rd.pending ++ d.rd.submit.take blks.length
          mem := mem
          submitCnt := d.rd.submitCnt - blks.length
          done := d.rd.done + blks.length }
        stat := st
        hist := { d.hist with completed := d.hist.completed ++ blks } }
    exact ⟨n, mem, st', hn, hroom, fun _ => hstop, hkeep, hmap, congrArg some heq'⟩

theorem notifyWrites_eq (n : Nat) (d : Dev) (hlen : n ≤ d.wt.submit.length) :
    ∃ m st, m ≤ d.wt.pending.length ∧ (m = 0 ∨ d.wt.submitCnt - n + m ≤ wtFifoDepth) ∧
      (n ≠ 0 → d.dmaEnable = true →
        m = d.wt.pending.length ∨ wtFifoDepth ≤ d.wt.submitCnt - n + m) ∧
      (n = 0 → m = 0) ∧
      notifyWrites g n d = some
        { d with
          wt := { (d.wt.reap n).postTake g.wtPhys d.wt.pending m with
            free := d.wt.free ++ d.wt.submit.take n
            pending := d.wt.pending.drop m }
          stat := st } := by
  unfold notifyWrites
  by_cases hzero : n = 0
  · subst hzero
    refine ⟨0, d.stat, Nat.zero_le _, .inl rfl, by simp, by simp, ?_⟩
    simp [Side.reap, Side.postTake]
  · obtain ⟨st, heq⟩ := completeWrites_eq n d hlen
    rw [if_neg hzero, heq, Option.map_some]
    obtain ⟨m, st', hm, hroom, hstop, heq'⟩ := tryToSubmitWriteNolock_eq g
      { d with
        wt := { d.wt with
          submit := d.wt.submit.drop n
          free := d.wt.free ++ d.wt.submit.take n
          submitCnt := d.wt.submitCnt - n
          done := d.wt.done + n }
        stat := st }
    exact ⟨m, st', hm, hroom, fun _ => hstop, fun h => absurd h hzero, congrArg some heq'⟩

/-- `pdma_dev_list_init` threads each pool in index order and clears everything else. -/
theorem listInit_eq (d : Dev) :
    listInit g d =
      { d with
        rd := { free := List.range g.rdBufNr, mem := d.rd.mem }
        wt := { free := List.range g.wtBufNr, mem := d.wt.mem }
        stat := { rdFree := g.rdBufNr, wtFree := g.wtBufNr }
        hist := { results := d.hist.results } } := by
  have hrd : ∀ (l : List Buf) (d : Dev), l.foldl (fun d b =>
      { d with rd := { d.rd with free := d.rd.free ++ [b] }, stat := d.stat.rdFreeInc }) d =
      { d with
        rd := { d.rd with free := d.rd.free ++ l }
        stat := { d.stat with rdFree := d.stat.rdFree + l.length } } := by
    intro l
    induction l with
    | nil => simp
    | cons b l ih =>
      intro d
      rw [List.foldl_cons, ih]
      simp [Stat.rdFreeInc, Int.add_assoc, Int.add_comm 1]
  have hwt : ∀ (l : List Buf) (d : Dev), l.foldl (fun d b =>
      { d with wt := { d.wt with free := d.wt.free ++ [b] }, stat := d.stat.wtFreeInc }) d =
      { d with
        wt := { d.wt with free := d.wt.free ++ l }
        stat := { d.stat with wtFree := d.stat.wtFree + l.length } } := by
    intro l
    induction l with
    | nil => simp
    | cons b l ih =>
      intro d
      rw [List.foldl_cons, ih]
      simp [Stat.wtFreeInc, Int.add_assoc, Int.add_comm 1]
  unfold listInit threadWt threadRd
  rw [hrd, hwt]
  simp

end Dev

end PdmaXen.Pdma
