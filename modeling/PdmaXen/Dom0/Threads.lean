import Mathlib.Logic.Function.Basic
import PdmaXen.Machine

/-!
# The service threads of the Dom0 back end

One thread `xen_chrif_schedule` for each DomU takes its requests and serves them on
the one PDMA device. A step is one access to a variable of `chrbk`, one operation on
`pdma_lock` or `write_pdma_wq`, or one call of the device.
-/

namespace PdmaXen.Dom0
set_option autoImplicit false
open Machine

abbrev Dom := Nat

/-- `CHRIF_OP_OPEN` and the others. -/
inductive Op where
  | opOpen | read | write | ioctl | opClose | map | unknown
deriving DecidableEq

structure Request where
  id : UInt32
  operation : Op
  status : UInt32
  length : UInt32
deriving DecidableEq

/-- `length` is `none` where the code sets none. -/
structure Response where
  id : UInt32
  operation : Op
  status : UInt32
  length : Option UInt32
deriving DecidableEq

/-- `CHRIF_OP_WRITE` and `do_write_resp`. The wait is that of
`wait_event_interruptible` for `write_pdma_ws` on `write_pdma_wq`. -/
inductive WritePc where
  | lock
  | ownerTest
  | claim
  | ownTest
  | clearWs
  | unlockWait
  | waitTest
  | prepare
  | waitRetest
  | asleep
  | takeOver
  | resetTest
  | reset
  | lenTest
  | lenReg
  | block
  | account
  | respond
  | finish
  | clear
  | unlock
deriving DecidableEq

/-- `do_read_resp`; `val` is what `ctrl.val` holds. -/
inductive ReadPc where
  | regTest
  | reg
  | block (val : UInt32)
  | respond (val : UInt32)
  | account (val : UInt32)
  | finish (val : UInt32)
  | clear
  | release
  | active
  | setWs
  | wake
  | reset
deriving DecidableEq

/-- `dead`: a call went through a pointer to no open file. -/
inductive Pc where
  | idle
  | openCount (req : Request)
  | openFile (req : Request)
  | closeCount (req : Request)
  | closeFile (req : Request)
  | write (req : Request) (pc : WritePc)
  | read (req : Request) (pc : ReadPc)
  | ioctlLock (req : Request)
  | ioctlStat (req : Request)
  | ioctlRespond (req : Request)
  | ioctlUnlock
  | respond (req : Request)
  | dead
deriving DecidableEq

inductive Filp where
  | null | opened | errPtr | closed
deriving DecidableEq

/-- A call of the device. A block write and a block read say whether they succeed,
a block read also what `ctrl.val` holds; a register write that fails is only printed. -/
inductive DevOp where
  | regWrite (val : UInt32)
  | regRead
  | write (ok : Bool)
  | read (val : UInt32) (ok : Bool)
  | stat
deriving DecidableEq

inductive Event where
  | take (d : Dom) (req : Request)
  | op (d : Dom) (o : DevOp)
  | response (d : Dom) (resp : Response)
  /-- `holder` holds the lock that `d` releases. -/
  | unlock (d : Dom) (holder : Option Dom)
deriving DecidableEq

/-- `wtBlockSz` is `pdma_info.wt_block_sz`, the same for all front ends. -/
structure Config where
  wtBlockSz : UInt32

/-- `struct xen_chrbk` with `pdma_lock` and the places of the threads; `trace` is
history. `wtingDomuId` is `none` for -1. -/
structure State where
  pdmaLock : Option Dom := none
  wtingDomuId : Option Dom := none
  writePdmaWs : Bool := false
  writePdmaWq : List Dom := []
  writedSz : UInt32 := 0
  readedSz : UInt32 := 0
  openCnt : Int := 0
  chrifFilp : Filp := .null
  pc : Dom → Pc := fun _ => .idle
  trace : List Event := []

/-- What the environment answers a step: `ok` whether the open or the block succeeds,
`reg` the register, `stale` what an unset `ctrl.val` holds. -/
structure Env where
  ok : Bool := true
  reg : Option UInt32 := none
  stale : UInt32 := 0

def makeResponse (req : Request) (length : Option UInt32) : Response :=
  { id := req.id, operation := req.operation, status := req.status + 1, length }

namespace State

def goto (s : State) (d : Dom) (pc : Pc) : State := { s with pc := Function.update s.pc d pc }

def log (s : State) (e : Event) : State := { s with trace := s.trace ++ [e] }

/-- A call of the device, then on to `next`. -/
def call (s : State) (d : Dom) (o : DevOp) (next : Pc) : State :=
  if s.chrifFilp = .opened then (s.log (.op d o)).goto d next else s.goto d .dead

def lockThen (s : State) (d : Dom) (next : Pc) : State :=
  if s.pdmaLock = none then { s with pdmaLock := some d }.goto d next else s

def unlock (s : State) (d : Dom) : State := { s.log (.unlock d s.pdmaLock) with pdmaLock := none }

def respond (s : State) (d : Dom) (req : Request) (length : Option UInt32) : State :=
  s.log (.response d (makeResponse req length))

def writeStep (cfg : Config) (s : State) (d : Dom) (env : Env) (req : Request) : WritePc → State
  | .lock => s.lockThen d (.write req .ownerTest)
  | .ownerTest => s.goto d (.write req (if s.wtingDomuId = none then .claim else .ownTest))
  | .claim => { s with wtingDomuId := some d }.goto d (.write req .ownTest)
  | .ownTest => s.goto d (.write req (if s.wtingDomuId = some d then .resetTest else .clearWs))
  | .clearWs => { s with writePdmaWs := false }.goto d (.write req .unlockWait)
  | .unlockWait => (s.unlock d).goto d (.write req .waitTest)
  | .waitTest => s.goto d (.write req (if s.writePdmaWs then .takeOver else .prepare))
  | .prepare => { s with writePdmaWq := d :: s.writePdmaWq }.goto d (.write req .waitRetest)
  | .waitRetest =>
    if s.writePdmaWs then
      { s with writePdmaWq := s.writePdmaWq.filter (· ≠ d) }.goto d (.write req .takeOver)
    else s.goto d (.write req .asleep)
  | .asleep => if d ∈ s.writePdmaWq then s else s.goto d (.write req .prepare)
  | .takeOver => { s with wtingDomuId := some d }.goto d (.write req .resetTest)
  | .resetTest => s.goto d (.write req (if s.writedSz = 0 then .reset else .lenTest))
  | .reset => s.call d (.regWrite 1) (.write req .lenTest)
  | .lenTest => s.goto d (.write req (if s.writedSz = 0 then .lenReg else .block))
  | .lenReg => s.call d (.regWrite ((req.length / 8) <<< 19)) (.write req .block)
  -- a block that fails is not answered
  | .block => s.call d (.write env.ok) (.write req (if env.ok then .account else .unlock))
  | .account => { s with writedSz := s.writedSz + cfg.wtBlockSz }.goto d (.write req .respond)
  | .respond => (s.respond d req none).goto d (.write req .finish)
  | .finish => s.goto d (.write req (if req.length ≤ s.writedSz then .clear else .unlock))
  | .clear => { s with writedSz := 0 }.goto d (.write req .unlock)
  | .unlock => (s.unlock d).goto d .idle

def readStep (cfg : Config) (s : State) (d : Dom) (env : Env) (req : Request) : ReadPc → State
  | .regTest => s.goto d (.read req (if s.readedSz = 0 then .reg else .block env.stale))
  | .reg => s.call d .regRead (.read req (.block (env.reg.getD env.stale)))
  | .block val => s.call d (.read val env.ok) (if env.ok then .read req (.respond val) else .idle)
  | .respond val => (s.respond d req (some val)).goto d (.read req (.account val))
  | .account val =>
    { s with readedSz := s.readedSz + cfg.wtBlockSz }.goto d (.read req (.finish val))
  | .finish val => s.goto d (if val ≤ s.readedSz then .read req .clear else .idle)
  | .clear => { s with readedSz := 0 }.goto d (.read req .release)
  | .release => { s with wtingDomuId := none }.goto d (.read req .active)
  | .active => s.goto d (.read req (if s.writePdmaWq = [] then .reset else .setWs))
  | .setWs => { s with writePdmaWs := true }.goto d (.read req .wake)
  -- every waiter is taken off the queue
  | .wake => { s with writePdmaWq := [] }.goto d (.read req .reset)
  | .reset => s.call d (.regWrite 1) .idle

def threadStep (cfg : Config) (s : State) (d : Dom) (env : Env) : State :=
  match s.pc d with
  | .idle | .dead => s
  | .openCount req =>
    { s with openCnt := s.openCnt + 1 }.goto d
      (if s.openCnt + 1 = 1 then .openFile req else .respond req)
  | .openFile req =>
    { s with chrifFilp := if env.ok then .opened else .errPtr }.goto d (.respond req)
  | .closeCount req =>
    { s with openCnt := s.openCnt - 1 }.goto d
      (if s.openCnt - 1 = 0 then .closeFile req else .respond req)
  | .closeFile req => { s with chrifFilp := .closed }.goto d (.respond req)
  | .write req pc => s.writeStep cfg d env req pc
  | .read req pc => s.readStep cfg d env req pc
  | .ioctlLock req => s.lockThen d (.ioctlStat req)
  | .ioctlStat req => s.call d .stat (.ioctlRespond req)
  | .ioctlRespond req => (s.respond d req none).goto d .ioctlUnlock
  | .ioctlUnlock => (s.unlock d).goto d .idle
  | .respond req => (s.respond d req none).goto d .idle

/-- Where the service of a request begins. A MAP is not answered, the status of an
unknown request is taken back. -/
def begin (req : Request) : Pc :=
  match req.operation with
  | .opOpen => .openCount req
  | .read => .read req .regTest
  | .write => .write req .lock
  | .ioctl => .ioctlLock req
  | .opClose => .closeCount req
  | .map => .idle
  | .unknown => .respond { req with status := req.status - 1 }

def takeStep (s : State) (d : Dom) (req : Request) : State :=
  if s.pc d = .idle then (s.log (.take d req)).goto d (begin req) else s

end State

/-- The front ends may send any request at any time. -/
inductive Label where
  | take (d : Dom) (req : Request)
  | run (d : Dom) (env : Env)

def Label.dom : Label → Dom
  | .take d _ | .run d _ => d

/-- A thread that waits makes a step that changes nothing. -/
def step (cfg : Config) (s : State) : Label → Option State
  | .take d req => some (s.takeStep d req)
  | .run d env => some (s.threadStep cfg d env)

theorem step_total (cfg : Config) (s : State) (l : Label) : ∃ t, step cfg s l = some t := by
  cases l <;> exact ⟨_, rfl⟩

section Fields
variable (s : State) (d : Dom) (pc : Pc) (e : Event)

@[simp] theorem goto_pc_self : (s.goto d pc).pc d = pc := by simp [State.goto]

@[simp] theorem goto_pc_of_ne {d' : Dom} (h : d' ≠ d) : (s.goto d pc).pc d' = s.pc d' := by
  simp [State.goto, h]

@[simp] theorem goto_pdmaLock : (s.goto d pc).pdmaLock = s.pdmaLock := rfl
@[simp] theorem goto_wtingDomuId : (s.goto d pc).wtingDomuId = s.wtingDomuId := rfl
@[simp] theorem goto_writePdmaWs : (s.goto d pc).writePdmaWs = s.writePdmaWs := rfl
@[simp] theorem goto_writePdmaWq : (s.goto d pc).writePdmaWq = s.writePdmaWq := rfl
@[simp] theorem goto_writedSz : (s.goto d pc).writedSz = s.writedSz := rfl
@[simp] theorem goto_readedSz : (s.goto d pc).readedSz = s.readedSz := rfl
@[simp] theorem goto_chrifFilp : (s.goto d pc).chrifFilp = s.chrifFilp := rfl
@[simp] theorem goto_trace : (s.goto d pc).trace = s.trace := rfl

end Fields

section
variable {cfg : Config} {s t : State} {d e : Dom}

theorem call_pc_of_ne (he : e ≠ d) (o : DevOp) (pc : Pc) : (s.call d o pc).pc e = s.pc e := by
  unfold State.call
  split <;> exact goto_pc_of_ne _ _ _ he

theorem lockThen_pc_of_ne (he : e ≠ d) (pc : Pc) : (s.lockThen d pc).pc e = s.pc e := by
  unfold State.lockThen
  split
  · exact goto_pc_of_ne _ _ _ he
  · rfl

theorem threadStep_pc_of_ne (cfg : Config) (env : Env) (he : e ≠ d) :
    (s.threadStep cfg d env).pc e = s.pc e := by
  unfold State.threadStep
  split
  · rfl
  · rfl
  · exact goto_pc_of_ne _ _ _ he
  · exact goto_pc_of_ne _ _ _ he
  · exact goto_pc_of_ne _ _ _ he
  · exact goto_pc_of_ne _ _ _ he
  · next req pc _ =>
    cases pc with
    | lock => exact lockThen_pc_of_ne he _
    | reset | lenReg | block => exact call_pc_of_ne he _ _
    | waitRetest =>
      simp only [State.writeStep]
      split <;> exact goto_pc_of_ne _ _ _ he
    | asleep =>
      simp only [State.writeStep]
      split
      · rfl
      · exact goto_pc_of_ne _ _ _ he
    | _ => exact goto_pc_of_ne _ _ _ he
  · next req pc _ =>
    cases pc with
    | reg | block | reset => exact call_pc_of_ne he _ _
    | _ => exact goto_pc_of_ne _ _ _ he
  · exact lockThen_pc_of_ne he _
  · exact call_pc_of_ne he _ _
  · exact goto_pc_of_ne _ _ _ he
  · exact goto_pc_of_ne _ _ _ he
  · exact goto_pc_of_ne _ _ _ he

theorem step_pc_of_ne {l : Label} (h : step cfg s l = some t) (he : e ≠ l.dom) :
    t.pc e = s.pc e := by
  cases l with
  | take d req =>
    cases h
    unfold State.takeStep
    split
    · exact goto_pc_of_ne _ _ _ he
    · rfl
  | run d env =>
    cases h
    exact threadStep_pc_of_ne cfg env he

theorem exec_pc_of_ne {ls : List Label} (h : exec (step cfg) s ls = some t)
    (he : ∀ l ∈ ls, e ≠ l.dom) : t.pc e = s.pc e := by
  induction ls generalizing s with
  | nil =>
    cases h
    rfl
  | cons l ls ih =>
    obtain ⟨m, hm, hrest⟩ := (exec_cons_eq_some _).mp h
    rw [ih hrest fun l' hl' => he l' (List.mem_cons_of_mem l hl'),
      step_pc_of_ne hm (he l List.mem_cons_self)]

end

def serve (d : Dom) (operation : Op) (length : UInt32) (n : Nat) (env : Env) : List Label :=
  .take d ⟨0, operation, 0, length⟩ :: List.replicate n (.run d env)

end PdmaXen.Dom0
