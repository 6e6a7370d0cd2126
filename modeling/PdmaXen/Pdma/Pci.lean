import PdmaXen.Ledger
import PdmaXen.Pdma.Device

/-!
# The PCI callbacks of a card

`pdma-pcie.c` and the entry points of `pdma-dev.c` it calls, as programs over the
resources of one card. What the kernel and the card answer is a parameter of
each program, so any step can fail.
-/

namespace PdmaXen.Pdma.Pci
set_option autoImplicit false
open Ledger

def enomem : Int := 12
def enodev : Int := 19
def enospc : Int := 28

inductive Res where
  | entity | pcieCtrl | device | regions | bar | msi
  | irq (i : Nat)
  | rdArray
  | rdBuf (i : Nat)
  | wtArray
  | wtBuf (i : Nat)
  | cdev
deriving DecidableEq

abbrev Run (α : Type) := Logged Res α

/-- Answers of the interrupt calls; an `Int` is an error number, 0 for success. -/
structure IrqAnswers where
  msiCap : Bool := true
  enableMsi : Int := 0
  requestIrq : Nat → Int := fun _ => 0

structure SetupAnswers where
  enableDevice : Int := 0
  requestRegions : Int := 0
  dmaMask64 : Int := 0
  dmaMask32 : Int := 0
  iomap : Bool := true
  irq : IrqAnswers := {}

/-- What the registers read while a `pdma_dma_stop` or `pdma_dma_start` polls them,
and whether `rw_cnt` comes to 0 in time. -/
structure ResetAnswers where
  pauseReg : Nat → BitVec 32 := fun _ => 0xc
  resetReg : Nat → BitVec 32 := fun _ => 0
  drained : Bool := true

/-- `block` and `pool` are what `memparse` makes of the module parameters. -/
structure InitAnswers where
  block : UInt64
  pool : UInt64
  rdArray : Bool := true
  rdBuf : Nat → Bool := fun _ => true
  wtArray : Bool := true
  wtBuf : Nat → Bool := fun _ => true
  minorIdx : Int := 0
  maxDev : Int := 32
  cdevAdd : Int := 0

structure ProbeAnswers where
  entity : Bool := true
  pcieCtrl : Bool := true
  setup : SetupAnswers := {}
  init : InitAnswers

/-- The part of `struct pdma` the callbacks read. `rd_buf_a` is the number of its
entries with a `virt_addr`; the loops that set them go upwards from 0. -/
structure Card where
  rdBufA : Option Nat := none
  wtBufA : Option Nat := none
  rdBufNr : Int32 := 0
  wtBufNr : Int32 := 0
  rdBufSize : Int32 := 0
  wtBufSize : Int32 := 0
  dmaEnable : Bool := false

/-! ## Setup and cleanup -/

def irqUsedNr : Nat := 1

def freeIrqs (i : Nat) : Run Unit := releaseAll ((List.range i).map .irq)

def pciInstallIrq (a : IrqAnswers) : Run Int :=
  if a.msiCap then
    if a.enableMsi ≠ 0 then pure (-enodev)
    else do
      acquire .msi
      let i ← acquireUpTo .irq (fun i => a.requestIrq i == 0) 0 irqUsedNr
      if i < irqUsedNr then
        freeIrqs i
        release .msi
        return a.requestIrq i
      else return 0
  else pure (-enodev)

def pciUnstallIrq : Run Unit := do
  freeIrqs irqUsedNr
  release .msi

/-- The labels at the end of `pdma_pcie_setup`. -/
def exit2 : Run Unit := release .device
def exit3 : Run Unit := do
  release .regions
  exit2
def exit4 : Run Unit := do
  release .bar
  exit3

def pcieSetup (a : SetupAnswers) : Run Int :=
  if a.enableDevice ≠ 0 then pure a.enableDevice
  else do
    acquire .device
    if a.requestRegions ≠ 0 then
      exit2
      return a.requestRegions
    else
      acquire .regions
      if a.dmaMask64 ≠ 0 ∧ a.dmaMask32 ≠ 0 then
        exit3
        return a.dmaMask32
      else if !a.iomap then
        exit3
        return -enomem
      else
        acquire .bar
        let ret ← pciInstallIrq a.irq
        if ret ≠ 0 then
          exit4
          return ret
        else return 0

def pcieCleanup : Run Unit := do
  pciUnstallIrq
  release .bar
  release .regions
  release .device

/-! ## Register access -/

/-- Read a register until `done`, at most `left + 1` times. -/
def pollReg (done : BitVec 32 → Bool) (reads : Nat → BitVec 32) (i : Nat) : Nat → Run Bool
  | 0 => do
    use .bar
    return done (reads i)
  | left + 1 => do
    use .bar
    if done (reads i) then return true else pollReg done reads (i + 1) left

def pcieDmaReset (a : ResetAnswers) : Run Int := do
  use .bar
  let paused ← pollReg (fun val => val &&& 0xc == 0xc) a.pauseReg 0 500
  if !paused then return -eagain
  else
    use .bar
    let reset ← pollReg (fun val => val == 0) a.resetReg 0 30
    return if reset then 0 else -eagain

def pcieConfigRwSize (size : UInt32) : Run Int :=
  if size == 0 || size % 4096 != 0 || size > 1024 * 1024 then pure (-einval)
  else do
    use .bar
    return 0

/-- `pdma_try_to_submit_read`: two words for each free buffer the FIFO has room for. -/
def tryToSubmitRead (submitCnt : Nat) : Nat → Run Unit
  | 0 => pure ()
  | free + 1 =>
    if submitCnt < rdFifoDepth then do
      use .bar
      use .bar
      tryToSubmitRead (submitCnt + 1) free
    else pure ()

def dmaStop (a : ResetAnswers) (c : Card) : Run (Card × Int) := do
  let ret ← pcieDmaReset a
  return ({ c with dmaEnable := false },
    if ret ≠ 0 then ret else if a.drained then 0 else -eagain)

def dmaStart (stop reset : ResetAnswers) (c : Card) : Run Card := do
  if c.dmaEnable then
    let _ ← dmaStop stop c
  let _ ← pcieDmaReset reset
  tryToSubmitRead 0 c.rdBufNr.toNatClampNeg
  return { c with dmaEnable := true }

/-! ## Pools -/

def inputCheckAndParse (a : InitAnswers) (c : Card) : Card × Int :=
  let blockSz := a.block.toUInt32.toInt32
  if blockSz == 0 || blockSz % 4096 != 0 || blockSz > 1024 * 1024 then (c, -einval)
  else
    let poolSz := a.pool.toInt64
    if poolSz == 0 || poolSz % blockSz.toInt64 != 0 then (c, -einval)
    else
      let bufNr := (poolSz / blockSz.toInt64).toInt32
      ({ c with rdBufNr := bufNr, rdBufSize := blockSz, wtBufNr := bufNr, wtBufSize := blockSz }, 0)

/-- One direction of `pdma_dev_free_pool`. -/
def freeSide (arr : Res) (buf : Nat → Res) (nr : Int32) : Option Nat → Run Unit
  | none => pure ()
  | some k => do
    releaseAll (((List.range nr.toNatClampNeg).filter (· < k)).map buf)
    release arr

def devFreePool (c : Card) : Run Unit := do
  freeSide .rdArray .rdBuf c.rdBufNr c.rdBufA
  freeSide .wtArray .wtBuf c.wtBufNr c.wtBufA

/-- One direction of `pdma_dev_alloc_pool`; `vmalloc` of nothing, or of a negative
count turned into a `size_t`, gives no memory. -/
def allocSide (arr : Res) (buf : Nat → Res) (nr : Int32) (array : Bool) (bufs : Nat → Bool) :
    Run (Option Nat × Bool) :=
  if array && 0 < nr then do
    acquire arr
    let k ← acquireUpTo buf bufs 0 nr.toNatClampNeg
    return (some k, k == nr.toNatClampNeg)
  else pure (none, false)

def devAllocPool (a : InitAnswers) (c : Card) : Run (Card × Int) := do
  let rd ← allocSide .rdArray .rdBuf c.rdBufNr a.rdArray a.rdBuf
  let c := { c with rdBufA := rd.1 }
  if !rd.2 then
    devFreePool c
    return (c, -enomem)
  else
    let wt ← allocSide .wtArray .wtBuf c.wtBufNr a.wtArray a.wtBuf
    let c := { c with wtBufA := wt.1 }
    if !wt.2 then
      devFreePool c
      return (c, -enomem)
    else return (c, 0)

/-! ## `pdma-dev.c` entry points -/

def devCtrlInit (c : Card) : Card := { c with dmaEnable := false }

def devRegister (a : InitAnswers) : Run Int :=
  if a.minorIdx ≥ a.maxDev then pure (-enospc)
  else if a.cdevAdd ≠ 0 then pure a.cdevAdd
  else do
    acquire .cdev
    return 0

def devInit (a : InitAnswers) (c : Card) : Run (Card × Int) :=
  let parsed := inputCheckAndParse a c
  if parsed.2 ≠ 0 then pure parsed
  else do
    let pool ← devAllocPool a parsed.1
    if pool.2 ≠ 0 then return pool
    else
      let c := devCtrlInit pool.1
      let ret ← pcieConfigRwSize c.rdBufSize.toUInt32
      if ret ≠ 0 then
        devFreePool c
        return (c, ret)
      else
        let ret ← devRegister a
        if ret ≠ 0 then
          devFreePool c
          return (c, ret)
        else return (c, 0)

def devExit (a : ResetAnswers) (c : Card) : Run Unit := do
  release .cdev
  let stopped ← dmaStop a c
  devFreePool stopped.1

def devInitForPcieError (stop reset : ResetAnswers) (c : Card) : Run Card := do
  let c := devCtrlInit c
  let _ ← pcieConfigRwSize c.rdBufSize.toUInt32
  dmaStart stop reset c

def devExitForPcieError (a : ResetAnswers) (c : Card) : Run Card := do
  let stopped ← dmaStop a c
  return stopped.1

/-! ## Callbacks of the PCI core -/

def pciProbe (a : ProbeAnswers) : Run (Card × Int) :=
  if !a.entity then pure ({}, -enomem)
  else do
    acquire .entity
    if !a.pcieCtrl then
      release .entity
      return ({}, -enomem)
    else
      acquire .pcieCtrl
      let ret ← pcieSetup a.setup
      if ret ≠ 0 then
        release .pcieCtrl
        release .entity
        return ({}, ret)
      else
        let init ← devInit a.init {}
        if init.2 ≠ 0 then
          pcieCleanup
          release .pcieCtrl
          release .entity
          return init
        else return init

def pciRemove (a : ResetAnswers) (c : Card) : Run Unit := do
  devExit a c
  pcieCleanup
  release .pcieCtrl
  release .entity

inductive ChannelState where
  | normal | frozen | permFailure
deriving DecidableEq

inductive ErsResult where
  | disconnect | needReset | recovered
deriving DecidableEq

def pciErrorDetected (state : ChannelState) (a : ResetAnswers) (c : Card) :
    Run (Card × ErsResult) :=
  if state = .permFailure then pure (c, .disconnect)
  else do
    let c ← devExitForPcieError a c
    pcieCleanup
    return (c, .needReset)

def pciSlotReset (a : SetupAnswers) (stop reset : ResetAnswers) (c : Card) :
    Run (Card × ErsResult) := do
  let ret ← pcieSetup a
  if ret ≠ 0 then return (c, .disconnect)
  else
    let c ← devInitForPcieError stop reset c
    return (c, .recovered)

inductive Callback where
  | errorDetected (state : ChannelState) (a : ResetAnswers)
  | slotReset (a : SetupAnswers) (stop reset : ResetAnswers)
  | resume

def Callback.run (c : Card) : Callback → Run Card
  | .errorDetected state a => do
    let done ← pciErrorDetected state a c
    return done.1
  | .slotReset a stop reset => do
    let done ← pciSlotReset a stop reset c
    return done.1
  | .resume => pure c

def runCallbacks (c : Card) : List Callback → Run Card
  | [] => pure c
  | cb :: cbs => do
    let c ← cb.run c
    runCallbacks c cbs

/-- Probe; when it succeeds the callbacks, and at the end remove. -/
def lifecycle (a : ProbeAnswers) (cbs : List Callback) (r : ResetAnswers) : Run Unit := do
  let probed ← pciProbe a
  if probed.2 ≠ 0 then return ()
  else
    let c ← runCallbacks probed.1 cbs
    pciRemove r c

end PdmaXen.Pdma.Pci
