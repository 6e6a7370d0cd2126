import Mathlib.Data.List.Basic
import Mathlib.Logic.Function.Basic

/-!
# The PDMA device structure

`struct pdma` of the v1.3 driver: six buffer lists, the two submit counters, the
statistics gauges and the registers that hold posted addresses. A buffer is its
index in `rd_buf_a` or `wt_buf_a`. The lists are plain lists of buffers; every
routine below is the part of the C routine that runs under `ppdma->lock`.
-/

namespace PdmaXen.Pdma
set_option autoImplicit false

abbrev Pid := Nat
abbrev Buf := Nat
abbrev Bytes := List UInt8
abbrev DmaAddr := BitVec 64

def rdFifoDepth : Nat := 128
def wtFifoDepth : Nat := 128

def eio : Int := 5
def eagain : Int := 11
def efault : Int := 14
def einval : Int := 22
def erestartsys : Int := 512

/-- What `pdma_dev_init` fixes for the life of a device. -/
structure Geometry where
  rdBufNr : Nat
  wtBufNr : Nat
  rdBufSize : Nat
  wtBufSize : Nat
  rdPhys : Buf → DmaAddr
  wtPhys : Buf → DmaAddr

/-- The two register words `pdma_pcie_submit_read/write` writes: high word first. -/
def submitWords (addr : DmaAddr) : BitVec 32 × BitVec 32 :=
  (addr.extractLsb' 32 32, addr.extractLsb' 0 32)

/-- The address the device takes over when the low word is written. -/
def fifoWord (words : BitVec 32 × BitVec 32) : DmaAddr := words.1 ++ words.2

theorem fifoWord_submitWords (addr : DmaAddr) : fifoWord (submitWords addr) = addr := by
  apply BitVec.eq_of_getLsbD_eq
  intro i hi
  simp only [fifoWord, submitWords, BitVec.getLsbD_append, BitVec.getLsbD_extractLsb']
  by_cases h : i < 32
  · simp [h]
  · have hsub : 32 + (i - 32) = i := by omega
    have hlt : i - 32 < 32 := by omega
    simp [h, hsub, hlt]

/-- One direction of the device. `posted` and `done` are the hardware side: the
addresses written to the FIFO since the lists were built, and how many of them
the device has reported complete. -/
structure Side where
  free : List Buf := []
  submit : List Buf := []
  pending : List Buf := []
  submitCnt : Int := 0
  posted : List DmaAddr := []
  done : Nat := 0
  mem : Buf → Bytes := fun _ => []

/-- `pdma_pcie_submit_*`, `list_add_tail(cur, submit)` and `submit_cnt++`. -/
def Side.post (s : Side) (phys : Buf → DmaAddr) (b : Buf) : Side :=
  { s with
    submit := s.submit ++ [b]
    submitCnt := s.submitCnt + 1
    posted := s.posted ++ [fifoWord (submitWords (phys b))] }

def Side.listed (s : Side) : List Buf := s.free ++ s.submit ++ s.pending

/-- The `PDMA_DEBUG` gauges and their history. -/
structure Stat where
  rdFree : Int := 0
  rdSubmit : Int := 0
  rdPending : Int := 0
  wtFree : Int := 0
  wtSubmit : Int := 0
  wtPending : Int := 0
  rdFifoTotal : Int := 0
  rdFifoCnt : Int := 0
  rdFifoMin : Int := 0
  rdPendingTotal : Int := 0
  rdPendingCnt : Int := 0
  rdPendingMax : Int := 0
  wtFifoTotal : Int := 0
  wtFifoCnt : Int := 0
  wtFifoMax : Int := 0
  wtPendingTotal : Int := 0
  wtPendingCnt : Int := 0
  wtPendingMax : Int := 0

namespace Stat

def rdFreeInc (t : Stat) : Stat := { t with rdFree := t.rdFree + 1 }
def rdFreeDec (t : Stat) : Stat := { t with rdFree := t.rdFree - 1 }
def rdSubmitInc (t : Stat) : Stat := { t with rdSubmit := t.rdSubmit + 1 }

def rdSubmitDec (t : Stat) : Stat :=
  let val := t.rdSubmit - 1
  { t with
    rdSubmit := val
    rdFifoTotal := t.rdFifoTotal + val
    rdFifoCnt := t.rdFifoCnt + 1
    rdFifoMin := if val < t.rdFifoMin ∨ t.rdFifoCnt + 1 = 1 then val else t.rdFifoMin }

def rdPendingInc (t : Stat) : Stat :=
  let val := t.rdPending + 1
  { t with
    rdPending := val
    rdPendingTotal := t.rdPendingTotal + val
    rdPendingCnt := t.rdPendingCnt + 1
    rdPendingMax := if val > t.rdPendingMax then val else t.rdPendingMax }

def rdPendingDec (t : Stat) : Stat := { t with rdPending := t.rdPending - 1 }
def wtFreeInc (t : Stat) : Stat := { t with wtFree := t.wtFree + 1 }
def wtFreeDec (t : Stat) : Stat := { t with wtFree := t.wtFree - 1 }

def wtSubmitInc (t : Stat) : Stat :=
  let val := t.wtSubmit + 1
  { t with
    wtSubmit := val
    wtFifoTotal := t.wtFifoTotal + val
    wtFifoCnt := t.wtFifoCnt + 1
    wtFifoMax := if val > t.wtFifoMax then val else t.wtFifoMax }

def wtSubmitDec (t : Stat) : Stat := { t with wtSubmit := t.wtSubmit - 1 }

def wtPendingInc (t : Stat) : Stat :=
  let val := t.wtPending + 1
  { t with
    wtPending := val
    wtPendingTotal := t.wtPendingTotal + val
    wtPendingCnt := t.wtPendingCnt + 1
    wtPendingMax := if val > t.wtPendingMax then val else t.wtPendingMax }

def wtPendingDec (t : Stat) : Stat := { t with wtPending := t.wtPending - 1 }

end Stat

/-- A wait entry between `prepare_to_wait` and `finish_wait`. -/
structure Wait where
  onQueue : Bool := true
  woken : Bool := false
  deriving DecidableEq

/-- `wake_up_interruptible` takes an entry off the queue and makes its task runnable. -/
def Wait.wake (w : Wait) : Wait := if w.onQueue then { onQueue := false, woken := true } else w

def Wait.forget (w : Wait) : Wait := { w with onQueue := false }

/-- Where a `pdma_read` stands. The constructors that carry a buffer are the ones
between taking it off `rd_pending` and putting it on a list again. -/
inductive RdPc where
  | idle
  | start
  | bounceCopy | bounceClear | bounceBump
  | enter | checkEnable | checkSize
  | tryRead
  | copyBounce (b : Buf) | bump (b : Buf) | copyUser (b : Buf) | requeue (b : Buf) | release (b : Buf)
  | submit
  | prepare | prepared (w : Wait) | asleep (w : Wait) | finish | relock
  | exit (ret : Int)
  deriving DecidableEq

def RdPc.held : RdPc → Option Buf
  | copyBounce b | bump b | copyUser b | requeue b | release b => some b
  | _ => none

inductive WtPc where
  | idle
  | enter | checkEnable | checkSize
  | tryWrite
  | copyUser (b : Buf) | requeue (b : Buf) | commit (b : Buf)
  | prepare | prepared (w : Wait) | asleep (w : Wait) | finish | relock
  | exit (ret : Int)
  deriving DecidableEq

def WtPc.held : WtPc → Option Buf
  | copyUser b | requeue b | commit b => some b
  | _ => none

inductive IsrPc where
  | idle
  | notify
  | wakeRd (wtToo : Bool)
  | wakeWt
  deriving DecidableEq

/-- Who called `pdma_dma_start`: the ioctl or `pdma_dev_init_for_pcie_error`. -/
inductive Starter where
  | ioctl | pcieInit
  deriving DecidableEq

inductive Stopper where
  | ioctl
  | start (k : Starter)
  | devExit
  | pcieExit
  deriving DecidableEq

inductive CtlPc where
  | idle
  | stopDisable (k : Stopper) | stopReset (k : Stopper)
  | stopWakeRd (k : Stopper) (count : Nat) | stopWakeWt (k : Stopper) (count : Nat)
  | stopCheck (k : Stopper) (count : Nat)
  | startTest (k : Starter) | startReset (k : Starter)
  | startInit (k : Starter) | startSubmit (k : Starter)
  | ctrlInit | configSize
  | freePool
  deriving DecidableEq

structure RdProc where
  pc : RdPc := .idle
  count : Nat := 0
  nonblock : Bool := false
  got : Bytes := []

structure WtProc where
  pc : WtPc := .idle
  count : Nat := 0
  nonblock : Bool := false

/-- A block a `pdma_read` took, in the order in which the calls took theirs;
`done` once its copy to user space succeeded. -/
structure Take where
  pid : Pid
  data : Bytes
  done : Bool

structure RdResult where
  pid : Pid
  ret : Int
  bytes : Bytes

/-- History variables: nothing in the driver reads them. -/
structure History where
  completed : List Bytes := []
  takes : List Take := []
  /-- buffers in the order in which `pdma_write` calls pass their last critical section -/
  committed : List Buf := []
  results : List RdResult := []

structure Dev where
  dmaEnable : Bool := false
  rwCnt : Int := 0
  rd : Side := {}
  wt : Side := {}
  stat : Stat := {}
  poolLive : Bool := true
  readers : Pid → RdProc := fun _ => {}
  writers : Pid → WtProc := fun _ => {}
  isrs : Pid → IsrPc := fun _ => .idle
  ctls : Pid → CtlPc := fun _ => .idle
  hist : History := {}

namespace Dev

def setRd (d : Dev) (p : Pid) (pc : RdPc) : Dev :=
  { d with readers := Function.update d.readers p { d.readers p with pc := pc } }

def setWt (d : Dev) (p : Pid) (pc : WtPc) : Dev :=
  { d with writers := Function.update d.writers p { d.writers p with pc := pc } }

def setIsr (d : Dev) (p : Pid) (pc : IsrPc) : Dev := { d with isrs := Function.update d.isrs p pc }
def setCtl (d : Dev) (p : Pid) (pc : CtlPc) : Dev := { d with ctls := Function.update d.ctls p pc }

def rdHeld (d : Dev) (p : Pid) : Option Buf := (d.readers p).pc.held

def wtHeld (d : Dev) (p : Pid) : Option Buf := (d.writers p).pc.held

/-- The loop of `pdma_try_to_submit_read_nolock`, on what is left of `rd_free`. -/
def submitReadLoop (g : Geometry) : List Buf → Dev → Dev
  | [], d => d
  | b :: free, d =>
    if d.rd.submitCnt < rdFifoDepth then
      submitReadLoop g free
        { d with
          rd := { d.rd with free := free }.post g.rdPhys b
          stat := d.stat.rdFreeDec.rdSubmitInc }
    else d

/-- `pdma_try_to_submit_read_nolock`; its fifo checks only print. -/
def tryToSubmitReadNolock (g : Geometry) (d : Dev) : Dev :=
  if d.dmaEnable then submitReadLoop g d.rd.free d else d

def submitWriteLoop (g : Geometry) : List Buf → Dev → Dev
  | [], d => d
  | b :: pending, d =>
    if d.wt.submitCnt < wtFifoDepth then
      submitWriteLoop g pending
        { d with
          wt := { d.wt with pending := pending }.post g.wtPhys b
          stat := d.stat.wtPendingDec.wtSubmitInc }
    else d

def tryToSubmitWriteNolock (g : Geometry) (d : Dev) : Dev :=
  if d.dmaEnable then submitWriteLoop g d.wt.pending d else d

/-- The read half of the loop in `pdma_intr_notify`, one completed block a turn.
On an empty `rd_submit` the C code would unlink the list head itself. -/
def completeReads : List Bytes → Dev → Option Dev
  | [], d => some d
  | blk :: blks, d =>
    match d.rd.submit with
    | [] => none
    | b :: rest =>
      completeReads blks
        { d with
          rd := { d.rd with
            submit := rest
            pending := d.rd.pending ++ [b]
            mem := Function.update d.rd.mem b blk }
          stat := d.stat.rdSubmitDec.rdPendingInc }

def completeWrites : Nat → Dev → Option Dev
  | 0, d => some d
  | n + 1, d =>
    match d.wt.submit with
    | [] => none
    | b :: rest =>
      completeWrites n
        { d with
          wt := { d.wt with submit := rest, free := d.wt.free ++ [b] }
          stat := d.stat.wtSubmitDec.wtFreeInc }

def notifyReads (g : Geometry) (blks : List Bytes) (d : Dev) : Option Dev :=
  if blks.length = 0 then some d
  else (completeReads blks d).map fun d =>
    tryToSubmitReadNolock g
      { d with
        rd := { d.rd with
          submitCnt := d.rd.submitCnt - blks.length
          done := d.rd.done + blks.length }
        hist := { d.hist with completed := d.hist.completed ++ blks } }

def notifyWrites (g : Geometry) (n : Nat) (d : Dev) : Option Dev :=
  if n = 0 then some d
  else (completeWrites n d).map fun d =>
    tryToSubmitWriteNolock g
      { d with wt := { d.wt with submitCnt := d.wt.submitCnt - n, done := d.wt.done + n } }

/-- The device reports completions of posted buffers only, each with a full block. -/
def Honest (g : Geometry) (blks : List Bytes) (n : Nat) (d : Dev) : Prop :=
  blks.length ≤ d.rd.posted.length - d.rd.done ∧ n ≤ d.wt.posted.length - d.wt.done ∧
    ∀ blk ∈ blks, blk.length = g.rdBufSize

instance (g : Geometry) (blks : List Bytes) (n : Nat) (d : Dev) : Decidable (Honest g blks n d) :=
  inferInstanceAs (Decidable (_ ∧ _ ∧ _))

/-- The read pool loop of `pdma_dev_list_init`. -/
def threadRd (g : Geometry) (d : Dev) : Dev :=
  (List.range g.rdBufNr).foldl (fun d b =>
    { d with rd := { d.rd with free := d.rd.free ++ [b] }, stat := d.stat.rdFreeInc }) d

def threadWt (g : Geometry) (d : Dev) : Dev :=
  (List.range g.wtBufNr).foldl (fun d b =>
    { d with wt := { d.wt with free := d.wt.free ++ [b] }, stat := d.stat.wtFreeInc }) d

/-- `pdma_dev_list_init`: empty lists and counters, cleared statistics, then every
buffer of both pools on its free list. The histories start again with the lists. -/
def listInit (g : Geometry) (d : Dev) : Dev :=
  threadWt g (threadRd g
    { d with
      rd := { mem := d.rd.mem }
      wt := { mem := d.wt.mem }
      stat := {}
      hist := { results := d.hist.results } })

end Dev

end PdmaXen.Pdma
