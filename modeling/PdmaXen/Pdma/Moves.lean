import PdmaXen.Pdma.Calls
import PdmaXen.Pdma.Sections

/-!
# What one step of each call does to the device

One inversion per call. It names the list a buffer leaves and the list it joins,
and says that everything else stays. The invariants of the later modules are case
analyses on these and never look at a program counter twice.
-/

namespace PdmaXen.Pdma
set_option autoImplicit false

namespace Dev
variable {g : Geometry} {d d' : Dev} {p : Pid}

theorem rdHeld_setRd (d : Dev) (p : Pid) (pc : RdPc) :
    (d.setRd p pc).rdHeld = Function.update d.rdHeld p pc.held := by
  funext q
  by_cases hq : q = p
  · subst q
    simp [rdHeld, setRd]
  · simp [rdHeld, setRd, Function.update_of_ne hq]

theorem wtHeld_setWt (d : Dev) (p : Pid) (pc : WtPc) :
    (d.setWt p pc).wtHeld = Function.update d.wtHeld p pc.held := by
  funext q
  by_cases hq : q = p
  · subst q
    simp [wtHeld, setWt]
  · simp [wtHeld, setWt, Function.update_of_ne hq]

theorem rdHeld_setRd_same {pc : RdPc} (h : pc.held = d.rdHeld p) :
    (d.setRd p pc).rdHeld = d.rdHeld := by
  rw [rdHeld_setRd, h, Function.update_eq_self]

theorem wtHeld_setWt_same {pc : WtPc} (h : pc.held = d.wtHeld p) :
    (d.setWt p pc).wtHeld = d.wtHeld := by
  rw [wtHeld_setWt, h, Function.update_eq_self]

theorem rdHeld_gotBytes (d : Dev) (p : Pid) (data : Bytes) : (d.gotBytes p data).rdHeld = d.rdHeld := by
  funext q
  by_cases hq : q = p
  · subst q
    simp [rdHeld, gotBytes]
  · simp [rdHeld, gotBytes, Function.update_of_ne hq]

/-- What one step of a `pdma_read` does to the read pool. -/
inductive RdMove (g : Geometry) (d : Dev) (p : Pid) (d' : Dev) : Prop where
  | stay (rd : d'.rd = d.rd) (held : d'.rdHeld = d.rdHeld)
  | take (b : Buf) (rest : List Buf) (pending : d.rd.pending = b :: rest)
      (empty : d.rdHeld p = none) (rd : d'.rd = { d.rd with pending := rest })
      (held : d'.rdHeld = Function.update d.rdHeld p (some b))
  | requeue (b : Buf) (pc : (d.readers p).pc = .requeue b) (holds : d.rdHeld p = some b)
      (rd : d'.rd = { d.rd with pending := b :: d.rd.pending })
      (held : d'.rdHeld = Function.update d.rdHeld p none)
  | release (b : Buf) (holds : d.rdHeld p = some b)
      (rd : d'.rd = { d.rd with free := d.rd.free ++ [b] })
      (held : d'.rdHeld = Function.update d.rdHeld p none)
  | submit (rd : d'.rd = (tryToSubmitReadNolock g d).rd) (held : d'.rdHeld = d.rdHeld)

theorem RdMove.stay_setRd {e : Dev} {pc : RdPc} (hrd : e.rd = d.rd) (hheld : e.rdHeld = d.rdHeld)
    (hpc : pc.held = d.rdHeld p) : RdMove g d p (e.setRd p pc) := by
  refine .stay hrd ?_
  rw [← hheld]
  exact rdHeld_setRd_same (by rw [hpc, hheld])

theorem tryRead_move (hp : d.rdHeld p = none) : RdMove g d p (d.tryRead p) := by
  unfold tryRead
  split
  · rename_i b rest hpend
    exact .take b rest hpend hp rfl (rdHeld_setRd ..)
  · refine .stay_setRd rfl rfl ?_
    rw [hp]
    split <;> rfl

theorem rdStep_move (g : Geometry) (bn : Bounce) (d : Dev) (p : Pid) (copyOk sig : Bool) :
    RdMove g d p (d.rdStep g bn p copyOk sig).2 := by
  have hheld : d.rdHeld p = (d.readers p).pc.held := rfl
  unfold rdStep
  cases hpc : (d.readers p).pc <;> rw [hpc] at hheld <;> simp only [RdPc.held] at hheld <;> dsimp only
  case idle => exact .stay rfl rfl
  case tryRead => exact tryRead_move hheld
  case requeue b => exact .requeue b hpc hheld rfl (rdHeld_setRd ..)
  case release b => exact .release b hheld rfl (rdHeld_setRd ..)
  case submit =>
    refine .submit rfl ?_
    obtain ⟨n, st, _, _, _, heq⟩ := tryToSubmitReadNolock_eq g d
    rw [heq]
    exact rdHeld_setRd_same hheld.symm
  case bounceCopy =>
    split
    · exact .stay_setRd rfl (rdHeld_gotBytes d p _) hheld.symm
    · exact .stay_setRd rfl rfl hheld.symm
  case copyUser b =>
    split
    · exact .stay_setRd rfl (rdHeld_gotBytes d p _) hheld.symm
    · exact .stay_setRd rfl rfl hheld.symm
  case relock =>
    split
    · exact tryRead_move hheld
    · exact .stay_setRd rfl rfl hheld.symm
  case asleep w =>
    split
    · exact .stay_setRd rfl rfl hheld.symm
    · split
      · exact .stay_setRd rfl rfl hheld.symm
      · exact .stay rfl rfl
  case start | checkEnable | checkSize | prepared | finish =>
    refine .stay_setRd rfl rfl ?_
    rw [hheld]
    split <;> rfl
  all_goals exact .stay_setRd rfl rfl hheld.symm

/-- A `pdma_read` touches the read side, its own entry, `rw_cnt` and the read histories. -/
theorem rdStep_frame (g : Geometry) (bn : Bounce) (d : Dev) (p : Pid) (copyOk sig : Bool) :
    ∃ rwCnt rd stat readers takes results, (d.rdStep g bn p copyOk sig).2 =
      { d with
        rwCnt := rwCnt
        rd := rd
        stat := stat
        readers := readers
        hist := { d.hist with takes := takes, results := results } } := by
  unfold rdStep
  cases hpc : (d.readers p).pc <;> dsimp only
  case submit =>
    obtain ⟨n, st, _, _, _, heq⟩ := tryToSubmitReadNolock_eq g d
    rw [heq]
    exact ⟨_, _, _, _, _, _, rfl⟩
  case tryRead =>
    unfold tryRead
    split <;> exact ⟨_, _, _, _, _, _, rfl⟩
  case relock =>
    unfold tryRead
    split
    · split <;> exact ⟨_, _, _, _, _, _, rfl⟩
    · exact ⟨_, _, _, _, _, _, rfl⟩
  case bounceCopy | copyUser => split <;> exact ⟨_, _, _, _, _, _, rfl⟩
  case asleep w =>
    split
    · exact ⟨_, _, _, _, _, _, rfl⟩
    · split <;> exact ⟨_, _, _, _, _, _, rfl⟩
  all_goals exact ⟨_, _, _, _, _, _, rfl⟩

inductive WtMove (g : Geometry) (d : Dev) (p : Pid) (d' : Dev) : Prop where
  | stay (mem : Buf → Bytes) (wt : d'.wt = { d.wt with mem := mem }) (held : d'.wtHeld = d.wtHeld)
      (hist : d'.hist = d.hist)
  | take (b : Buf) (rest : List Buf) (free : d.wt.free = b :: rest) (empty : d.wtHeld p = none)
      (wt : d'.wt = { d.wt with free := rest })
      (held : d'.wtHeld = Function.update d.wtHeld p (some b)) (hist : d'.hist = d.hist)
  | requeue (b : Buf) (pc : (d.writers p).pc = .requeue b) (holds : d.wtHeld p = some b)
      (wt : d'.wt = { d.wt with free := b :: d.wt.free })
      (held : d'.wtHeld = Function.update d.wtHeld p none) (hist : d'.hist = d.hist)
  | post (b : Buf) (holds : d.wtHeld p = some b) (room : d.wt.submitCnt < wtFifoDepth)
      (wt : d'.wt = d.wt.post g.wtPhys b) (held : d'.wtHeld = Function.update d.wtHeld p none)
      (hist : d'.hist = { d.hist with committed := d.hist.committed ++ [b] })
  | pend (b : Buf) (holds : d.wtHeld p = some b) (full : ¬ d.wt.submitCnt < wtFifoDepth)
      (wt : d'.wt = { d.wt with pending := d.wt.pending ++ [b] })
      (held : d'.wtHeld = Function.update d.wtHeld p none)
      (hist : d'.hist = { d.hist with committed := d.hist.committed ++ [b] })
  | lose (b : Buf) (holds : d.wtHeld p = some b) (off : d.dmaEnable = false) (wt : d'.wt = d.wt)
      (held : d'.wtHeld = Function.update d.wtHeld p none) (hist : d'.hist = d.hist)

theorem WtMove.stay_setWt {e : Dev} {pc : WtPc} (mem : Buf → Bytes)
    (hwt : e.wt = { d.wt with mem := mem }) (hheld : e.wtHeld = d.wtHeld) (hhist : e.hist = d.hist)
    (hpc : pc.held = d.wtHeld p) : WtMove g d p (e.setWt p pc) := by
  refine .stay mem hwt ?_ hhist
  rw [← hheld]
  exact wtHeld_setWt_same (by rw [hpc, hheld])

theorem tryWrite_move (hp : d.wtHeld p = none) : WtMove g d p (d.tryWrite p) := by
  unfold tryWrite
  split
  · rename_i b rest hfree
    exact .take b rest hfree hp rfl (wtHeld_setWt ..) rfl
  · refine .stay_setWt d.wt.mem rfl rfl rfl ?_
    rw [hp]
    split <;> rfl

theorem commitWrite_move {b : Buf} (hp : d.wtHeld p = some b) : WtMove g d p (d.commitWrite g p b) := by
  unfold commitWrite
  split
  · rename_i hoff
    exact .lose b hp hoff rfl (wtHeld_setWt ..) rfl
  · split
    · rename_i hroom
      exact .post b hp hroom rfl (wtHeld_setWt ..) rfl
    · rename_i hfull
      exact .pend b hp hfull rfl (wtHeld_setWt ..) rfl

theorem wtStep_move (g : Geometry) (d : Dev) (p : Pid) (copied : Option Bytes) (sig : Bool) :
    WtMove g d p (d.wtStep g p copied sig) := by
  have hheld : d.wtHeld p = (d.writers p).pc.held := rfl
  unfold wtStep
  cases hpc : (d.writers p).pc <;> rw [hpc] at hheld <;> simp only [WtPc.held] at hheld <;> dsimp only
  case idle => exact .stay d.wt.mem rfl rfl rfl
  case tryWrite => exact tryWrite_move hheld
  case requeue b => exact .requeue b hpc hheld rfl (wtHeld_setWt ..) rfl
  case commit b => exact commitWrite_move hheld
  case copyUser b =>
    split
    · exact .stay_setWt _ rfl rfl rfl hheld.symm
    · exact .stay_setWt d.wt.mem rfl rfl rfl hheld.symm
  case relock =>
    split
    · exact tryWrite_move hheld
    · exact .stay_setWt d.wt.mem rfl rfl rfl hheld.symm
  case asleep w =>
    split
    · exact .stay_setWt d.wt.mem rfl rfl rfl hheld.symm
    · split
      · exact .stay_setWt d.wt.mem rfl rfl rfl hheld.symm
      · exact .stay d.wt.mem rfl rfl rfl
  case checkEnable | checkSize | prepared | finish =>
    refine .stay_setWt d.wt.mem rfl rfl rfl ?_
    rw [hheld]
    split <;> rfl
  all_goals exact .stay_setWt d.wt.mem rfl rfl rfl hheld.symm

theorem wtStep_frame (g : Geometry) (d : Dev) (p : Pid) (copied : Option Bytes) (sig : Bool) :
    ∃ rwCnt wt stat writers committed, d.wtStep g p copied sig =
      { d with
        rwCnt := rwCnt
        wt := wt
        stat := stat
        writers := writers
        hist := { d.hist with committed := committed } } := by
  unfold wtStep
  cases hpc : (d.writers p).pc <;> dsimp only
  case tryWrite =>
    unfold tryWrite
    split <;> exact ⟨_, _, _, _, _, rfl⟩
  case relock =>
    unfold tryWrite
    split
    · split <;> exact ⟨_, _, _, _, _, rfl⟩
    · exact ⟨_, _, _, _, _, rfl⟩
  case commit b =>
    unfold commitWrite
    split
    · exact ⟨_, _, _, _, _, rfl⟩
    · split <;> exact ⟨_, _, _, _, _, rfl⟩
  case copyUser => split <;> exact ⟨_, _, _, _, _, rfl⟩
  case asleep w =>
    split
    · exact ⟨_, _, _, _, _, rfl⟩
    · split <;> exact ⟨_, _, _, _, _, rfl⟩
  all_goals exact ⟨_, _, _, _, _, rfl⟩

theorem rdHeld_wakeRdque (d : Dev) : d.wakeRdque.rdHeld = d.rdHeld :=
  funext fun _ => RdPc.held_mapWait ..

theorem wtHeld_wakeWtque (d : Dev) : d.wakeWtque.wtHeld = d.wtHeld :=
  funext fun _ => WtPc.held_mapWait ..

inductive IsrMove (g : Geometry) (d : Dev) (p : Pid) (blks : List Bytes) (n : Nat) (d' : Dev) :
    Prop where
  | idle (pc : d.isrs p = .idle) (eq : d' = d)
  | off (pc : d.isrs p = .notify) (off : d.dmaEnable = false) (eq : d' = d.setIsr p .idle)
  | notify (pc : d.isrs p = .notify) (on : d.dmaEnable = true)
      (reads : blks.length ≤ d.rd.submit.length) (writes : n ≤ d.wt.submit.length)
      (full : ∀ blk ∈ blks, blk.length = g.rdBufSize)
      (k m : Nat) (mem : Buf → Bytes) (st : Stat)
      (rdFree : k ≤ d.rd.free.length)
      (rdRoom : k = 0 ∨ d.rd.submitCnt - blks.length + k ≤ rdFifoDepth)
      (rdStop : blks ≠ [] → k = d.rd.free.length ∨ rdFifoDepth ≤ d.rd.submitCnt - blks.length + k)
      (kept : ∀ b ∉ d.rd.submit.take blks.length, mem b = d.rd.mem b)
      (filled : d.rd.submit.Nodup → (d.rd.submit.take blks.length).map mem = blks)
      (wtPending : m ≤ d.wt.pending.length)
      (wtRoom : m = 0 ∨ d.wt.submitCnt - n + m ≤ wtFifoDepth)
      (wtStop : n ≠ 0 → m = d.wt.pending.length ∨ wtFifoDepth ≤ d.wt.submitCnt - n + m)
      (wtNone : n = 0 → m = 0)
      (eq : d' =
        { d with
          rd := { (d.rd.reap blks.length).postTake g.rdPhys d.rd.free k with
            free := d.rd.free.drop k
            pending := d.rd.pending ++ d.rd.submit.take blks.length
            mem := mem }
          wt := { (d.wt.reap n).postTake g.wtPhys d.wt.pending m with
            free := d.wt.free ++ d.wt.submit.take n
            pending := d.wt.pending.drop m }
          stat := st
          hist := { d.hist with completed := d.hist.completed ++ blks } }.setIsr p
            (if blks.length ≠ 0 then .wakeRd (n ≠ 0) else if n ≠ 0 then .wakeWt else .idle))
  | wakeRd (wtToo : Bool) (pc : d.isrs p = .wakeRd wtToo)
      (eq : d' = d.wakeRdque.setIsr p (if wtToo then .wakeWt else .idle))
  | wakeWt (pc : d.isrs p = .wakeWt) (eq : d' = d.wakeWtque.setIsr p .idle)

/-- A step of `pdma_intr_notify` with the two halves of its report apart. -/
inductive IsrHalves (g : Geometry) (d : Dev) (p : Pid) (blks : List Bytes) (n : Nat) (d' : Dev) :
    Prop where
  | idle (pc : d.isrs p = .idle) (eq : d' = d)
  | off (pc : d.isrs p = .notify) (off : d.dmaEnable = false) (eq : d' = d.setIsr p .idle)
  | notify (pc : d.isrs p = .notify) (on : d.dmaEnable = true)
      (reads : blks.length ≤ d.rd.submit.length) (writes : n ≤ d.wt.submit.length)
      (full : ∀ blk ∈ blks, blk.length = g.rdBufSize) (c e : Dev)
      (first : notifyReads g blks d = some c) (wt : c.wt = d.wt)
      (second : notifyWrites g n c = some e)
      (eq : d' = e.setIsr p
        (if blks.length ≠ 0 then .wakeRd (n ≠ 0) else if n ≠ 0 then .wakeWt else .idle))
  | wakeRd (wtToo : Bool) (pc : d.isrs p = .wakeRd wtToo)
      (eq : d' = d.wakeRdque.setIsr p (if wtToo then .wakeWt else .idle))
  | wakeWt (pc : d.isrs p = .wakeWt) (eq : d' = d.wakeWtque.setIsr p .idle)

theorem isrStep_halves {blks : List Bytes} {n : Nat} (hrd : d.rd.Fifo g.rdPhys)
    (hwt : d.wt.Fifo g.wtPhys) (hstep : d.isrStep g p blks n = some d') :
    IsrHalves g d p blks n d' := by
  unfold isrStep at hstep
  cases hpc : d.isrs p <;> simp only [hpc, Option.some.injEq] at hstep
  case idle => exact .idle hpc hstep.symm
  case wakeRd wtToo => exact .wakeRd wtToo hpc hstep.symm
  case wakeWt => exact .wakeWt hpc hstep.symm
  case notify =>
    split at hstep
    · rename_i hoff
      exact .off hpc hoff (Option.some.inj hstep).symm
    · rename_i hon
      have hon : d.dmaEnable = true := by simpa using hon
      obtain ⟨⟨hreads, hwrites, hfull⟩, hreport⟩ := Option.ite_none_right_eq_some.mp hstep
      rw [hrd.in_flight] at hreads
      rw [hwt.in_flight] at hwrites
      obtain ⟨e, he, rfl⟩ := Option.map_eq_some_iff.mp hreport
      obtain ⟨c, hfirst, hsecond⟩ := Option.bind_eq_some_iff.mp he
      obtain ⟨_, _, _, _, _, _, _, _, heq⟩ := notifyReads_eq g blks d hreads
      have hsame : c.wt = d.wt := by rw [Option.some.inj (hfirst.symm.trans heq)]
      exact .notify hpc hon hreads hwrites hfull c e hfirst hsame hsecond rfl

theorem isrStep_move {blks : List Bytes} {n : Nat} (hrd : d.rd.Fifo g.rdPhys)
    (hwt : d.wt.Fifo g.wtPhys) (hstep : d.isrStep g p blks n = some d') :
    IsrMove g d p blks n d' := by
  cases isrStep_halves hrd hwt hstep with
  | idle pc eq => exact .idle pc eq
  | off pc off eq => exact .off pc off eq
  | wakeRd wtToo pc eq => exact .wakeRd wtToo pc eq
  | wakeWt pc eq => exact .wakeWt pc eq
  | notify pc on reads writes full c e first wt second eq =>
    obtain ⟨k, mem, st, hk, hroom, hstop, hkept, hfilled, heq⟩ := notifyReads_eq g blks d reads
    obtain ⟨m, st', hm, hroom', hstop', hnone, heq'⟩ := notifyWrites_eq g n c (wt ▸ writes)
    obtain rfl := Option.some.inj (second.symm.trans heq')
    obtain rfl := Option.some.inj (first.symm.trans heq)
    exact .notify pc on reads writes full k m mem st' hk hroom (fun h => hstop h on) hkept
      hfilled hm hroom' (fun h => hstop' h on) hnone eq

theorem pc_rdCall {β : Type} {f : RdPc → β} (hidle : (d.readers p).pc = .idle)
    (hf : f .start = f .idle) (count : Nat) (nonblock : Bool) (q : Pid) :
    f (Function.update d.readers p ⟨.start, count, nonblock, []⟩ q).pc = f (d.readers q).pc := by
  by_cases hq : q = p
  · subst q
    rw [Function.update_self, hf, hidle]
  · rw [Function.update_of_ne hq]

theorem pc_wtCall {β : Type} {f : WtPc → β} (hidle : (d.writers p).pc = .idle)
    (hf : f .enter = f .idle) (count : Nat) (nonblock : Bool) (q : Pid) :
    f (Function.update d.writers p ⟨.enter, count, nonblock⟩ q).pc = f (d.writers q).pc := by
  by_cases hq : q = p
  · subst q
    rw [Function.update_self, hf, hidle]
  · rw [Function.update_of_ne hq]

theorem rdHeld_call (hidle : (d.readers p).pc = .idle) (count : Nat) (nonblock : Bool) :
    { d with readers := Function.update d.readers p ⟨.start, count, nonblock, []⟩ }.rdHeld =
      d.rdHeld :=
  funext fun q => pc_rdCall (f := RdPc.held) hidle rfl count nonblock q

theorem wtHeld_call (hidle : (d.writers p).pc = .idle) (count : Nat) (nonblock : Bool) :
    { d with writers := Function.update d.writers p ⟨.enter, count, nonblock⟩ }.wtHeld =
      d.wtHeld :=
  funext fun q => pc_wtCall (f := WtPc.held) hidle rfl count nonblock q

/-- The control steps that thread every buffer onto a free list again. -/
def Rebuilds (d : Dev) (p : Pid) : Prop := (∃ k, d.ctls p = .startInit k) ∨ d.ctls p = .ctrlInit

theorem rdHeld_ctrlInit (g : Geometry) (d : Dev) : (d.ctrlInit g).rdHeld = d.rdHeld := by
  unfold ctrlInit
  rw [listInit_eq]
  exact funext fun _ => RdPc.held_mapWait ..

theorem wtHeld_ctrlInit (g : Geometry) (d : Dev) : (d.ctrlInit g).wtHeld = d.wtHeld := by
  unfold ctrlInit
  rw [listInit_eq]
  exact funext fun _ => WtPc.held_mapWait ..

theorem init_eq (g : Geometry) : Dev.init g =
    { rd := { free := List.range g.rdBufNr }
      wt := { free := List.range g.wtBufNr }
      stat := { rdFree := g.rdBufNr, wtFree := g.wtBufNr } } := by
  unfold Dev.init ctrlInit
  rw [listInit_eq]
  rfl

/-- A control step that does not rebuild the lists moves nothing but free read buffers. -/
theorem ctlStep_rd (hre : ¬ Rebuilds d p) (resetOk : Bool) :
    ((d.ctlStep g p resetOk).rd = d.rd ∨ (d.ctlStep g p resetOk).rd = (tryToSubmitReadNolock g d).rd) ∧
      (d.ctlStep g p resetOk).rdHeld = d.rdHeld := by
  unfold ctlStep
  cases hpc : d.ctls p <;> dsimp only
  case startInit k => exact absurd (.inl ⟨k, hpc⟩) hre
  case ctrlInit => exact absurd (.inr hpc) hre
  case startSubmit =>
    refine ⟨.inr rfl, ?_⟩
    obtain ⟨n, st, _, _, _, heq⟩ := tryToSubmitReadNolock_eq g d
    rw [heq]
    rfl
  case stopWakeRd => exact ⟨.inl rfl, rdHeld_wakeRdque d⟩
  case stopCheck => split <;> exact ⟨.inl rfl, rfl⟩
  all_goals exact ⟨.inl rfl, rfl⟩

theorem ctlStep_wt (hre : ¬ Rebuilds d p) (resetOk : Bool) :
    (d.ctlStep g p resetOk).wt = d.wt ∧ (d.ctlStep g p resetOk).wtHeld = d.wtHeld := by
  unfold ctlStep
  cases hpc : d.ctls p <;> dsimp only
  case startInit k => exact absurd (.inl ⟨k, hpc⟩) hre
  case ctrlInit => exact absurd (.inr hpc) hre
  case startSubmit =>
    obtain ⟨n, st, _, _, _, heq⟩ := tryToSubmitReadNolock_eq g d
    rw [heq]
    exact ⟨rfl, rfl⟩
  case stopWakeWt => exact ⟨rfl, wtHeld_wakeWtque d⟩
  case stopCheck => split <;> exact ⟨rfl, rfl⟩
  all_goals exact ⟨rfl, rfl⟩

/-- A rebuild gives each pool back its range of indices, in order. -/
theorem ctlStep_rebuild (hre : Rebuilds d p) (resetOk : Bool) :
    (d.ctlStep g p resetOk).rd = { free := List.range g.rdBufNr, mem := d.rd.mem } ∧
      (d.ctlStep g p resetOk).wt = { free := List.range g.wtBufNr, mem := d.wt.mem } ∧
      (d.ctlStep g p resetOk).rdHeld = d.rdHeld ∧ (d.ctlStep g p resetOk).wtHeld = d.wtHeld := by
  unfold ctlStep
  rcases hre with ⟨k, hpc⟩ | hpc <;> rw [hpc] <;> dsimp only
  · rw [listInit_eq]
    exact ⟨rfl, rfl, rfl, rfl⟩
  · refine ⟨?_, ?_, rdHeld_ctrlInit g d, wtHeld_ctrlInit g d⟩ <;>
      · unfold ctrlInit
        rw [listInit_eq]
        rfl

end Dev

open Dev

variable {g : Geometry} {bn bn' : Bounce} {d d' : Dev} {l : Label}

/-- One enabled step, label by label. -/
inductive StepCase (g : Geometry) (bn : Bounce) (d : Dev) : Label → Bounce → Dev → Prop where
  | rdCall (p : Pid) (count : Nat) (nonblock : Bool) (idle : (d.readers p).pc = .idle) :
    StepCase g bn d (.rdCall p count nonblock) bn
      { d with readers := Function.update d.readers p ⟨.start, count, nonblock, []⟩ }
  | rdStep (p : Pid) (copyOk sig : Bool) :
    StepCase g bn d (.rdStep p copyOk sig) (d.rdStep g bn p copyOk sig).1
      (d.rdStep g bn p copyOk sig).2
  | wtCall (p : Pid) (count : Nat) (nonblock : Bool) (idle : (d.writers p).pc = .idle) :
    StepCase g bn d (.wtCall p count nonblock) bn
      { d with writers := Function.update d.writers p ⟨.enter, count, nonblock⟩ }
  | wtStep (p : Pid) (copied : Option Bytes) (sig : Bool) :
    StepCase g bn d (.wtStep p copied sig) bn (d.wtStep g p copied sig)
  | isrCall (p : Pid) (idle : d.isrs p = .idle) :
    StepCase g bn d (.isrCall p) bn (d.setIsr p .notify)
  | isrStep (p : Pid) (blks : List Bytes) (n : Nat) (e : Dev)
      (runs : d.isrStep g p blks n = some e) : StepCase g bn d (.isrStep p blks n) bn e
  | ctlCall (p : Pid) (op : CtlOp) (idle : d.ctls p = .idle) :
    StepCase g bn d (.ctlCall p op) bn (d.setCtl p op.entry)
  | ctlStep (p : Pid) (resetOk : Bool) :
    StepCase g bn d (.ctlStep p resetOk) bn (d.ctlStep g p resetOk)

theorem step_cases (hstep : step g bn d l = some (bn', d')) : StepCase g bn d l bn' d' := by
  cases l with
  | rdCall p count nonblock =>
    obtain ⟨hidle, he⟩ := Option.ite_none_right_eq_some.mp hstep
    cases he
    exact .rdCall p count nonblock hidle
  | rdStep p copyOk sig =>
    have he : d.rdStep g bn p copyOk sig = (bn', d') := Option.some.inj hstep
    have hcase : StepCase g bn d (.rdStep p copyOk sig) _ _ := .rdStep p copyOk sig
    rwa [he] at hcase
  | wtCall p count nonblock =>
    obtain ⟨hidle, he⟩ := Option.ite_none_right_eq_some.mp hstep
    cases he
    exact .wtCall p count nonblock hidle
  | wtStep p copied sig =>
    obtain ⟨rfl, rfl⟩ := Prod.mk.inj (Option.some.inj hstep)
    exact .wtStep p copied sig
  | isrCall p =>
    obtain ⟨hidle, he⟩ := Option.ite_none_right_eq_some.mp hstep
    cases he
    exact .isrCall p hidle
  | isrStep p blks n =>
    obtain ⟨e, he, hpair⟩ := Option.map_eq_some_iff.mp hstep
    cases hpair
    exact .isrStep p blks n d' he
  | ctlCall p op =>
    obtain ⟨hidle, he⟩ := Option.ite_none_right_eq_some.mp hstep
    cases he
    exact .ctlCall p op hidle
  | ctlStep p resetOk =>
    obtain ⟨rfl, rfl⟩ := Prod.mk.inj (Option.some.inj hstep)
    exact .ctlStep p resetOk

def Label.isCtl : Label → Bool
  | .ctlCall _ _ | .ctlStep _ _ => true
  | _ => false

structure Fifos (g : Geometry) (d : Dev) : Prop where
  rd : d.rd.Fifo g.rdPhys
  wt : d.wt.Fifo g.wtPhys

theorem Dev.RdMove.fifo {p : Pid} (hm : RdMove g d p d') (h : d.rd.Fifo g.rdPhys) :
    d'.rd.Fifo g.rdPhys := by
  cases hm with
  | submit rd _ =>
    obtain ⟨n, st, hn, hroom, _, heq⟩ := tryToSubmitReadNolock_eq g d
    rw [rd, heq]
    exact (h.postTake hn hroom).congr rfl rfl rfl rfl
  | stay rd _ | take _ _ _ _ rd _ | requeue _ _ _ rd _ | release _ _ rd _ =>
    rw [rd]
    exact h.congr rfl rfl rfl rfl

theorem Dev.WtMove.fifo {p : Pid} (hm : WtMove g d p d') (h : d.wt.Fifo g.wtPhys) :
    d'.wt.Fifo g.wtPhys := by
  cases hm with
  | post b _ room wt _ _ =>
    rw [wt]
    exact h.post room
  | stay _ wt _ _ | take _ _ _ _ wt _ _ | requeue _ _ _ wt _ _ | pend _ _ _ wt _ _
  | lose _ _ _ wt _ _ =>
    rw [wt]
    exact h.congr rfl rfl rfl rfl

theorem step_fifos (hstep : step g bn d l = some (bn', d')) (h : Fifos g d) : Fifos g d' := by
  cases step_cases hstep with
  | rdStep p copyOk sig =>
    obtain ⟨_, _, _, _, _, _, heq⟩ := rdStep_frame g bn d p copyOk sig
    exact ⟨(rdStep_move g bn d p copyOk sig).fifo h.rd, by rw [heq]; exact h.wt⟩
  | wtStep p copied sig =>
    obtain ⟨_, _, _, _, _, heq⟩ := wtStep_frame g d p copied sig
    exact ⟨by rw [heq]; exact h.rd, (wtStep_move g d p copied sig).fifo h.wt⟩
  | isrStep p blks n _ he =>
    cases isrStep_move h.rd h.wt he with
    | notify _ _ reads writes _ k m mem st rdFree rdRoom _ _ _ wtPending wtRoom _ _ eq =>
      rw [eq]
      exact ⟨((h.rd.reap reads).postTake rdFree rdRoom).congr rfl rfl rfl rfl,
        ((h.wt.reap writes).postTake wtPending wtRoom).congr rfl rfl rfl rfl⟩
    | idle _ eq | off _ _ eq | wakeRd _ _ eq | wakeWt _ eq =>
      rw [eq]
      exact ⟨h.rd, h.wt⟩
  | ctlStep p resetOk =>
    by_cases hp : Rebuilds d p
    · obtain ⟨hrd, hwt, _, _⟩ := ctlStep_rebuild (g := g) hp resetOk
      exact ⟨by rw [hrd]; exact Side.fifo_empty, by rw [hwt]; exact Side.fifo_empty⟩
    · obtain ⟨hrd, hrh⟩ := ctlStep_rd (g := g) hp resetOk
      obtain ⟨hwt, _⟩ := ctlStep_wt (g := g) hp resetOk
      refine ⟨?_, by rw [hwt]; exact h.wt⟩
      rcases hrd with hrd | hrd
      · rw [hrd]
        exact h.rd
      · exact RdMove.fifo (p := p) (.submit hrd hrh) h.rd
  | _ => exact ⟨h.rd, h.wt⟩

def RebuildStep (d : Dev) : Label → Prop
  | .ctlStep p _ => Rebuilds d p
  | _ => False

theorem step_control (hl : l.isCtl = false) (hf : Fifos g d)
    (hstep : step g bn d l = some (bn', d')) : d'.dmaEnable = d.dmaEnable ∧ d'.ctls = d.ctls := by
  cases step_cases hstep with
  | rdStep p copyOk sig =>
    obtain ⟨_, _, _, _, _, _, heq⟩ := rdStep_frame g bn d p copyOk sig
    rw [heq]
    exact ⟨rfl, rfl⟩
  | wtStep p copied sig =>
    obtain ⟨_, _, _, _, _, heq⟩ := wtStep_frame g d p copied sig
    rw [heq]
    exact ⟨rfl, rfl⟩
  | isrStep p blks n _ he =>
    cases isrStep_move hf.rd hf.wt he <;> (rename_i eq; rw [eq]; exact ⟨rfl, rfl⟩)
  | ctlCall | ctlStep => cases hl
  | _ => exact ⟨rfl, rfl⟩

/-- `d` is what the locked section of a `pdma_dma_start` leaves when it runs in
`d₀` and no other control operation is under way. -/
def Starts (g : Geometry) (d₀ d : Dev) : Prop :=
  ∃ p k, d₀.ctls p = .startInit k ∧ (∀ q, q ≠ p → d₀.ctls q = .idle) ∧ d = d₀.ctlStep g p true

def NoCalls (d : Dev) : Prop :=
  (∀ p, (d.readers p).pc = .idle) ∧ ∀ p, (d.writers p).pc = .idle

/-- Labels of runs between a start and the next stop. -/
def Label.isCtlCall : Label → Bool
  | .ctlCall _ _ => true
  | _ => false

/-- DMA is on and only the tail of a `pdma_dma_start` is left to run. -/
structure Running (d : Dev) : Prop where
  on : d.dmaEnable = true
  tail : ∀ p, d.ctls p = .idle ∨ ∃ k, d.ctls p = .startSubmit k

theorem Starts.running {d₀ : Dev} (h : Starts g d₀ d) : Running d := by
  obtain ⟨p, k, hp, hidle, rfl⟩ := h
  unfold ctlStep
  rw [hp]
  dsimp only
  refine ⟨rfl, fun q => ?_⟩
  by_cases hq : q = p
  · subst q
    exact .inr ⟨k, Function.update_self ..⟩
  · refine .inl ?_
    rw [listInit_eq]
    simp only [setCtl, Function.update_of_ne hq]
    exact hidle q hq

theorem Starts.fifos {d₀ : Dev} (h : Starts g d₀ d) : Fifos g d := by
  obtain ⟨p, k, hp, -, rfl⟩ := h
  obtain ⟨hrd, hwt, _, _⟩ := ctlStep_rebuild (g := g) (.inl ⟨k, hp⟩) true
  exact ⟨by rw [hrd]; exact Side.fifo_empty, by rw [hwt]; exact Side.fifo_empty⟩

theorem Running.no_rebuild (h : Running d) (l : Label) : ¬ RebuildStep d l := by
  cases l with
  | ctlStep p resetOk =>
    intro hre
    rcases h.tail p with hp | ⟨k, hp⟩ <;> simp [RebuildStep, Rebuilds, hp] at hre
  | _ => exact id

theorem step_running (hl : l.isCtlCall = false) (hstep : step g bn d l = some (bn', d'))
    (hf : Fifos g d) (h : Running d) : Running d' := by
  cases hctl : l.isCtl with
  | false =>
    obtain ⟨hon, hctls⟩ := step_control hctl hf hstep
    exact ⟨hon.trans h.on, fun p => by rw [hctls]; exact h.tail p⟩
  | true =>
    cases step_cases hstep with
    | ctlCall => cases hl
    | ctlStep p resetOk =>
      unfold ctlStep
      rcases h.tail p with hp | ⟨k, hp⟩ <;> rw [hp] <;> dsimp only
      · exact h
      · obtain ⟨n, st, _, _, _, heq⟩ := tryToSubmitReadNolock_eq g d
        rw [heq]
        refine ⟨h.on, fun q => ?_⟩
        by_cases hq : q = p
        · subst q
          exact .inl (Function.update_self ..)
        · simp only [setCtl, Function.update_of_ne hq]
          exact h.tail q
    | _ => cases hctl

end PdmaXen.Pdma
