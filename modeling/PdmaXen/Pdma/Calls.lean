import PdmaXen.Machine
import PdmaXen.Pdma.Device

/-!
# The calls of the PDMA driver, step by step

A step is one critical section of `ppdma->lock`, one atomic operation, or one
access to state that other calls see. A call that has returned and a call that
is still asleep do nothing when they are scheduled.
-/

namespace PdmaXen.Pdma
set_option autoImplicit false

/-- The module globals `bbuf` and `flgrd`; `bbuf` is the memory from its first byte on. -/
structure Bounce where
  bbuf : Nat → UInt8 := fun _ => 0
  flgrd : Int32 := 0

def bounceTurn (flgrd : Int32) : Bool := (flgrd + 2) % 2 != 0

def memcpy (m : Nat → UInt8) (src : Bytes) : Nat → UInt8 := fun i => src.getD i (m i)
def memzero (m : Nat → UInt8) (count : Nat) : Nat → UInt8 := fun i => if i < count then 0 else m i
def bytesOf (m : Nat → UInt8) (count : Nat) : Bytes := (List.range count).map m

namespace Dev

/-- The `try_read` section: take the oldest pending block or get ready to sleep. -/
def tryRead (d : Dev) (p : Pid) : Dev :=
  match d.rd.pending with
  | b :: rest =>
    { d with
      rd := { d.rd with pending := rest }
      stat := d.stat.rdPendingDec
      hist := { d.hist with takes := d.hist.takes ++ [Take.mk p (d.rd.mem b) false] } }.setRd p
        (.copyBounce b)
  | [] => d.setRd p (if (d.readers p).nonblock then .exit (-eagain) else .prepare)

def requeueRead (d : Dev) (p : Pid) (b : Buf) : Dev :=
  { d with
    rd := { d.rd with pending := b :: d.rd.pending }
    stat := d.stat.rdPendingInc
    hist := { d.hist with
      takes := d.hist.takes.filter fun t => !(t.pid == p && !t.done) } }.setRd p (.exit (-efault))

def releaseRead (d : Dev) (p : Pid) (b : Buf) : Dev :=
  { d with
    rd := { d.rd with free := d.rd.free ++ [b] }
    stat := d.stat.rdFreeInc }.setRd p .submit

def gotBytes (d : Dev) (p : Pid) (data : Bytes) : Dev :=
  { d with readers := Function.update d.readers p { d.readers p with got := data } }

def delivered (d : Dev) (p : Pid) (data : Bytes) : Dev :=
  { d with hist := { d.hist with
      takes := d.hist.takes.map fun t =>
        if t.pid == p && !t.done then { t with data := data, done := true } else t } }

/-- The bounce path hands out `data` as a block of its own. -/
def deliveredBounce (d : Dev) (p : Pid) (data : Bytes) : Dev :=
  { d with hist := { d.hist with takes := d.hist.takes ++ [Take.mk p data true] } }

def returnRead (d : Dev) (p : Pid) (ret : Int) : Dev :=
  { d with hist := { d.hist with
      results := d.hist.results ++ [RdResult.mk p ret (d.readers p).got] } }.setRd p .idle

/-- One step of a `pdma_read`. `copyOk` answers `copy_to_user`, `sig` says whether
a signal is pending. -/
def rdStep (g : Geometry) (bn : Bounce) (d : Dev) (p : Pid) (copyOk sig : Bool) : Bounce × Dev :=
  let count := (d.readers p).count
  match (d.readers p).pc with
  | .idle => (bn, d)
  | .start => (bn, d.setRd p (if bounceTurn bn.flgrd then .bounceCopy else .enter))
  | .bounceCopy =>
    -- a failed copy is only printed
    let data := bytesOf bn.bbuf count
    (bn, (if copyOk then (d.gotBytes p data).deliveredBounce p data else d).setRd p .bounceClear)
  | .bounceClear => ({ bn with bbuf := memzero bn.bbuf count }, d.setRd p .bounceBump)
  | .bounceBump => ({ bn with flgrd := bn.flgrd + 1 }, d.returnRead p count)
  | .enter => (bn, { d with rwCnt := d.rwCnt + 1 }.setRd p .checkEnable)
  | .checkEnable => (bn, d.setRd p (if d.dmaEnable then .checkSize else .exit (-eio)))
  | .checkSize => (bn, d.setRd p (if count = g.rdBufSize then .tryRead else .exit (-einval)))
  | .tryRead => (bn, d.tryRead p)
  | .copyBounce b =>
    ({ bn with bbuf := memcpy bn.bbuf ((d.rd.mem b).take count) }, d.setRd p (.bump b))
  | .bump b => ({ bn with flgrd := bn.flgrd + 1 }, d.setRd p (.copyUser b))
  | .copyUser b =>
    let data := (d.rd.mem b).take count
    (bn, if copyOk then ((d.gotBytes p data).delivered p data).setRd p (.release b)
      else d.setRd p (.requeue b))
  | .requeue b => (bn, d.requeueRead p b)
  | .release b => (bn, d.releaseRead p b)
  | .submit => (bn, (d.tryToSubmitReadNolock g).setRd p (.exit count))
  | .prepare => (bn, d.setRd p (.prepared {}))
  | .prepared w => (bn, d.setRd p (if d.rd.pending = [] then .asleep w else .finish))
  | .asleep w =>
    (bn, if w.woken then d.setRd p .finish
      else if sig then d.setRd p (.exit (-erestartsys)) else d)
  | .finish => (bn, d.setRd p (if sig then .exit (-erestartsys) else .relock))
  | .relock => (bn, if d.dmaEnable then d.tryRead p else d.setRd p (.exit (-eio)))
  | .exit ret => (bn, { d with rwCnt := d.rwCnt - 1 }.returnRead p ret)

def tryWrite (d : Dev) (p : Pid) : Dev :=
  match d.wt.free with
  | b :: rest =>
    { d with
      wt := { d.wt with free := rest }
      stat := d.stat.wtFreeDec }.setWt p (.copyUser b)
  | [] => d.setWt p (if (d.writers p).nonblock then .exit (-eagain) else .prepare)

def requeueWrite (d : Dev) (p : Pid) (b : Buf) : Dev :=
  { d with
    wt := { d.wt with free := b :: d.wt.free }
    stat := d.stat.wtFreeInc }.setWt p (.exit (-efault))

/-- The section after the copy. Once DMA is stopped the buffer is put on no list. -/
def commitWrite (g : Geometry) (d : Dev) (p : Pid) (b : Buf) : Dev :=
  if d.dmaEnable = false then d.setWt p (.exit (-eio))
  else if d.wt.submitCnt < wtFifoDepth then
    { d with
      wt := d.wt.post g.wtPhys b
      stat := d.stat.wtSubmitInc
      hist := { d.hist with committed := d.hist.committed ++ [b] } }.setWt p
        (.exit (d.writers p).count)
  else
    { d with
      wt := { d.wt with pending := d.wt.pending ++ [b] }
      stat := d.stat.wtPendingInc
      hist := { d.hist with committed := d.hist.committed ++ [b] } }.setWt p
        (.exit (d.writers p).count)

/-- One step of a `pdma_write`. `copied` is what `copy_from_user` brings, `none` when it fails. -/
def wtStep (g : Geometry) (d : Dev) (p : Pid) (copied : Option Bytes) (sig : Bool) : Dev :=
  match (d.writers p).pc with
  | .idle => d
  | .enter => { d with rwCnt := d.rwCnt + 1 }.setWt p .checkEnable
  | .checkEnable => d.setWt p (if d.dmaEnable then .checkSize else .exit (-eio))
  | .checkSize =>
    d.setWt p (if (d.writers p).count = g.wtBufSize then .tryWrite else .exit (-einval))
  | .tryWrite => d.tryWrite p
  | .copyUser b =>
    match copied with
    | some data =>
      { d with wt := { d.wt with mem := Function.update d.wt.mem b data } }.setWt p (.commit b)
    | none => d.setWt p (.requeue b)
  | .requeue b => d.requeueWrite p b
  | .commit b => d.commitWrite g p b
  | .prepare => d.setWt p (.prepared {})
  | .prepared w => d.setWt p (if d.wt.free = [] then .asleep w else .finish)
  | .asleep w =>
    if w.woken then d.setWt p .finish
    else if sig then d.setWt p (.exit (-erestartsys)) else d
  | .finish => d.setWt p (if sig then .exit (-erestartsys) else .relock)
  | .relock => if d.dmaEnable then d.tryWrite p else d.setWt p (.exit (-eio))
  | .exit _ => { d with rwCnt := d.rwCnt - 1 }.setWt p .idle

end Dev

def RdPc.mapWait (f : Wait → Wait) : RdPc → RdPc
  | .prepared w => .prepared (f w)
  | .asleep w => .asleep (f w)
  | pc => pc

def WtPc.mapWait (f : Wait → Wait) : WtPc → WtPc
  | .prepared w => .prepared (f w)
  | .asleep w => .asleep (f w)
  | pc => pc

theorem RdPc.held_mapWait (f : Wait → Wait) (pc : RdPc) : (pc.mapWait f).held = pc.held := by
  cases pc <;> rfl

theorem WtPc.held_mapWait (f : Wait → Wait) (pc : WtPc) : (pc.mapWait f).held = pc.held := by
  cases pc <;> rfl

namespace Dev

def wakeRdque (d : Dev) : Dev :=
  { d with readers := fun p => { d.readers p with pc := (d.readers p).pc.mapWait Wait.wake } }

def wakeWtque (d : Dev) : Dev :=
  { d with writers := fun p => { d.writers p with pc := (d.writers p).pc.mapWait Wait.wake } }

/-- One step of a `pdma_intr_notify`; `blks` and `wtCnt` are what the device reports.
`none` only for a report the device does not make. -/
def isrStep (g : Geometry) (d : Dev) (p : Pid) (blks : List Bytes) (wtCnt : Nat) : Option Dev :=
  match d.isrs p with
  | .idle => some d
  | .notify =>
    if d.dmaEnable = false then some (d.setIsr p .idle)
    else if Honest g blks wtCnt d then
      ((notifyReads g blks d).bind (notifyWrites g wtCnt)).map fun d =>
        d.setIsr p (if blks.length ≠ 0 then .wakeRd (wtCnt ≠ 0)
          else if wtCnt ≠ 0 then .wakeWt else .idle)
    else none
  | .wakeRd wtToo => some (d.wakeRdque.setIsr p (if wtToo then .wakeWt else .idle))
  | .wakeWt => some (d.wakeWtque.setIsr p .idle)

/-- `pdma_dev_ctrl_init`, which takes no lock; no other step comes between its assignments here. -/
def ctrlInit (g : Geometry) (d : Dev) : Dev :=
  listInit g
    { d with
      dmaEnable := false
      rwCnt := 0
      readers := fun p => { d.readers p with pc := (d.readers p).pc.mapWait Wait.forget }
      writers := fun p => { d.writers p with pc := (d.writers p).pc.mapWait Wait.forget } }

end Dev

/-- Rounds `pdma_dma_stop` waits for `rw_cnt`. -/
def maxWait : Nat := 1000000

/-- Where a caller of `pdma_dma_stop` goes on; none of them but the ioctl looks at its result. -/
def Stopper.next : Stopper → CtlPc
  | .ioctl | .pcieExit => .idle
  | .start k => .startReset k
  | .devExit => .freePool

namespace Dev

/-- One step of a control operation. `resetOk` answers `pdma_pcie_dma_reset`. -/
def ctlStep (g : Geometry) (d : Dev) (p : Pid) (resetOk : Bool) : Dev :=
  match d.ctls p with
  | .idle => d
  | .stopDisable k => { d with dmaEnable := false }.setCtl p (.stopReset k)
  | .stopReset k => d.setCtl p (if resetOk then .stopWakeRd k 0 else k.next)
  | .stopWakeRd k n => d.wakeRdque.setCtl p (.stopWakeWt k n)
  | .stopWakeWt k n => d.wakeWtque.setCtl p (.stopCheck k n)
  | .stopCheck k n =>
    if d.rwCnt ≠ 0 then
      d.setCtl p (if n + 1 > maxWait then k.next else .stopWakeRd k (n + 1))
    else d.setCtl p k.next
  | .startTest k => d.setCtl p (if d.dmaEnable then .stopDisable (.start k) else .startReset k)
  | .startReset k => d.setCtl p (.startInit k)
  | .startInit k => { listInit g d with dmaEnable := true }.setCtl p (.startSubmit k)
  | .startSubmit _ => (d.tryToSubmitReadNolock g).setCtl p .idle
  | .ctrlInit => (d.ctrlInit g).setCtl p .configSize
  | .configSize => d.setCtl p (.startTest .pcieInit)
  | .freePool => { d with poolLive := false }.setCtl p .idle

end Dev

/-- `pdma_dma_start` and `pdma_dma_stop` through the ioctl, `pdma_dev_exit`, and
the two halves of PCI error recovery. -/
inductive CtlOp where
  | start | stop | devExit | exitForPcieError | initForPcieError
  deriving DecidableEq

def CtlOp.entry : CtlOp → CtlPc
  | .start => .startTest .ioctl
  | .stop => .stopDisable .ioctl
  | .devExit => .stopDisable .devExit
  | .exitForPcieError => .stopDisable .pcieExit
  | .initForPcieError => .ctrlInit

inductive Label where
  | rdCall (p : Pid) (count : Nat) (nonblock : Bool)
  | rdStep (p : Pid) (copyOk sig : Bool)
  | wtCall (p : Pid) (count : Nat) (nonblock : Bool)
  | wtStep (p : Pid) (copied : Option Bytes) (sig : Bool)
  | isrCall (p : Pid)
  | isrStep (p : Pid) (blks : List Bytes) (wtCnt : Nat)
  | ctlCall (p : Pid) (op : CtlOp)
  | ctlStep (p : Pid) (resetOk : Bool)

def step (g : Geometry) (bn : Bounce) (d : Dev) : Label → Option (Bounce × Dev)
  | .rdCall p count nonblock =>
    if (d.readers p).pc = .idle then
      some (bn, { d with readers := Function.update d.readers p ⟨.start, count, nonblock, []⟩ })
    else none
  | .rdStep p copyOk sig => some (d.rdStep g bn p copyOk sig)
  | .wtCall p count nonblock =>
    if (d.writers p).pc = .idle then
      some (bn, { d with writers := Function.update d.writers p ⟨.enter, count, nonblock⟩ })
    else none
  | .wtStep p copied sig => some (bn, d.wtStep g p copied sig)
  | .isrCall p => if d.isrs p = .idle then some (bn, d.setIsr p .notify) else none
  | .isrStep p blks wtCnt => (d.isrStep g p blks wtCnt).map fun d => (bn, d)
  | .ctlCall p op => if d.ctls p = .idle then some (bn, d.setCtl p op.entry) else none
  | .ctlStep p resetOk => some (bn, d.ctlStep g p resetOk)

def Dev.init (g : Geometry) : Dev := Dev.ctrlInit g {}

def smallCard : Geometry where
  rdBufNr := 2
  wtBufNr := 2
  rdBufSize := 4096
  wtBufSize := 4096
  rdPhys b := 0x10000000 + 4096 * BitVec.ofNat 64 b
  wtPhys b := 0x20000000 + 4096 * BitVec.ofNat 64 b

/-- The loaded module: its globals and every device it drives. -/
structure Driver where
  bounce : Bounce
  dev : Nat → Dev

def Driver.step (geo : Nat → Geometry) (s : Driver) (l : Nat × Label) : Option Driver :=
  (Pdma.step (geo l.1) s.bounce (s.dev l.1) l.2).map fun r =>
    ⟨r.1, Function.update s.dev l.1 r.2⟩

/-- What every guarded step of device `i` keeps holds of it in every run of the
module, whatever the other devices do meanwhile. -/
theorem Driver.invariant_along {geo : Nat → Geometry} {i : Nat} {I : Dev → Prop}
    {C : Bounce → Dev → Label → Prop}
    (preserved : ∀ {bn d l bn' d'}, I d → C bn d l → Pdma.step (geo i) bn d l = some (bn', d') →
      I d')
    {s t : Driver} {ls : List (Nat × Label)} (hs : I (s.dev i))
    (hC : Machine.Along (Driver.step geo) (fun s l => l.1 = i → C s.bounce (s.dev i) l.2) s ls)
    (hrun : Machine.exec (Driver.step geo) s ls = some t) : I (t.dev i) := by
  refine Machine.invariant_along (I := fun s : Driver => I (s.dev i)) ?_ hs hC hrun
  intro s l t hI hCl hstep
  obtain ⟨⟨bn, d⟩, hd, rfl⟩ := Option.map_eq_some_iff.mp hstep
  by_cases hi : l.1 = i
  · subst hi
    simpa using preserved hI (hCl rfl) hd
  · simpa [Function.update_of_ne (Ne.symm hi)] using hI

theorem Driver.along_of_invariant {geo : Nat → Geometry} {i : Nat} {I : Dev → Prop}
    {C D : Bounce → Dev → Label → Prop}
    (preserved : ∀ {bn d l bn' d'}, I d → C bn d l → Pdma.step (geo i) bn d l = some (bn', d') →
      I d')
    (safe : ∀ {bn d l}, I d → C bn d l → D bn d l)
    {s : Driver} {ls : List (Nat × Label)} (hs : I (s.dev i))
    (hC : Machine.Along (Driver.step geo) (fun s l => l.1 = i → C s.bounce (s.dev i) l.2) s ls) :
    Machine.Along (Driver.step geo) (fun s l => l.1 = i → D s.bounce (s.dev i) l.2) s ls := by
  refine Machine.along_of_invariant (I := fun s : Driver => I (s.dev i)) ?_
    (fun hI hCl hi => safe hI (hCl hi)) hs hC
  intro s l t hI hCl hstep
  have hrun : Machine.exec (Driver.step geo) s [l] = some t :=
    (Machine.exec_cons_eq_some _).mpr ⟨t, hstep, rfl⟩
  refine Driver.invariant_along preserved hI ?_ hrun
  exact ⟨hCl, fun _ _ => trivial⟩

end PdmaXen.Pdma
