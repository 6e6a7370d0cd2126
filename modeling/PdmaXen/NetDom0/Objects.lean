import PdmaXen.NetDom0.Backend
import PdmaXen.NetDom0.Queue

/-!
# Tasks and response buffers

The threads of a Net_Dom0 back end with every `req_task` and every response buffer
they allocate, on the queues as `xen_queue.c` links them. A task is known by the
number of the `kmalloc` that made it, and so is a response buffer. The calls of
`dispatch_sendtocli_queue` have a thread of their own, which the module never starts.
-/

namespace PdmaXen.NetDom0.Objects
set_option autoImplicit false

inductive Thread where
  | reqthrd | conthrd | sender
deriving DecidableEq

/-- A `req_task`: a WRITE with its response buffer, or a remote task. -/
inductive ReqTask where
  | native (d : Dom) (r : Req) (resp : Nat)
  | remote
deriving DecidableEq

/-- The last call of `__do_char_io_op` for a front end: the response buffer it allocated,
and whether it has put it in a task. -/
structure Call where
  resp : Nat := 0
  pushed : Bool := false

/-- Where `dispath_native_queue` is; `dead` keeps the task its thread died with. -/
inductive ReqPc where
  | wait
  | pop
  | writeResp (n : Nat) (stage : Stage)
  | readData (n : Nat)
  | respond (n : Nat)
  | remoteOp (n : Nat)
  | dead (n : Option Nat)
deriving DecidableEq

/-- Where the client's `dispatch_remote_queue` is. -/
inductive ConPc where
  | wait
  | pop
  | writeResp (n : Nat) (stage : Stage)
  | waitSer (n : Nat)
  | send (n : Nat)
  | submit (n : Nat)
  | recv
  | recvmsg (n : Nat)
  | waitResp (n : Nat)
  | dead (n : Option Nat)
deriving DecidableEq

inductive SenderPc where
  | wait
  | pop
  | send (n : Nat)
  | dead
deriving DecidableEq

/-- `touched` is history: the dispatchers that touched a queue or a task after
`kthread_stop`. -/
structure State where
  chrif : Dom → Chrif := fun _ => {}
  calls : Dom → Call := fun _ => {}
  queues : Queues
  tasks : Nat → ReqTask := fun _ => .remote
  nextTask : Nat := 0
  nextResp : Nat := 0
  freed : List Nat := []
  reqThrd : ReqPc := .wait
  conThrd : ConPc := .wait
  sender : SenderPc := .wait
  recvServerResp : Nat := 0
  stopped : List Thread := []
  touched : List Thread := []

/-- After `dom_init`, on heads and elements that held anything. -/
def start (memory : Memory) (mapped : Dom → Nat) : State :=
  { chrif := connected mapped, queues := { memory := initQueues memory } }

def ReqPc.task : ReqPc → Option Nat
  | .writeResp n _ | .readData n | .respond n | .remoteOp n => some n
  | .dead n => n
  | .wait | .pop => none

/-- From `submit` to the pop of `submit_queue` the queue has the task. -/
def ConPc.task : ConPc → Option Nat
  | .writeResp n _ | .waitSer n | .send n | .submit n | .recvmsg n | .waitResp n => some n
  | .dead n => n
  | .wait | .pop | .recv => none

def SenderPc.task : SenderPc → Option Nat
  | .send n => some n
  | .wait | .pop | .dead => none

def ReqPc.touches : ReqPc → Bool
  | .wait | .dead _ => false
  | _ => true

def ConPc.touches : ConPc → Bool
  | .wait | .waitSer _ | .waitResp _ | .dead _ => false
  | _ => true

def SenderPc.touches : SenderPc → Bool
  | .wait | .dead => false
  | _ => true

namespace State

def setChrif (s : State) (d : Dom) (c : Chrif) : State :=
  { s with chrif := Function.update s.chrif d c }

@[simp] theorem setChrif_self (s : State) (d : Dom) (c : Chrif) :
    (s.setChrif d c).chrif d = c := by simp [setChrif]

@[simp] theorem setChrif_of_ne (s : State) {d d' : Dom} (c : Chrif) (h : d' ≠ d) :
    (s.setChrif d c).chrif d' = s.chrif d' := by simp [setChrif, h]

def setCall (s : State) (d : Dom) (c : Call) : State :=
  { s with calls := Function.update s.calls d c }

def kmallocTask (s : State) (t : ReqTask) : State :=
  { s with tasks := Function.update s.tasks s.nextTask t, nextTask := s.nextTask + 1 }

def push (s : State) (q : QueueId) (n : Nat) : State := { s with queues := s.queues.push q n }

def pop (s : State) (q : QueueId) : State := { s with queues := s.queues.pop q }

def kfreeTask (s : State) (n : Nat) : State := { s with freed := s.freed ++ [n] }

def shouldStop (s : State) (t : Thread) : Bool := t ∈ s.stopped

/-- The condition of `wait_event_interruptible`; no signal reaches a kernel thread. -/
def wakes (s : State) (q : QueueId) (t : Thread) : Bool :=
  !xenQueueIsEmpty s.queues.memory (.head q) || s.shouldStop t

def note (s : State) (t : Thread) (touches : Bool) : State :=
  if touches && s.shouldStop t then { s with touched := s.touched ++ [t] } else s

/-- `kmalloc` of the response buffer at the entry of `__do_char_io_op`. -/
def enter (s : State) (d : Dom) : State :=
  { s.setCall d { resp := s.nextResp } with nextResp := s.nextResp + 1 }

/-- A WRITE: a task with the response buffer of the call, on `native_queue` of a server
and on `remote_queue` of a client. -/
def pushWrite (cfg : Config) (s : State) (d : Dom) (r : Req) : State :=
  let call := s.calls d
  let s' := (s.kmallocTask (.native d r call.resp)).setCall d { call with pushed := true }
  s'.push (if cfg.devOn then .native else .remote) s.nextTask

def irqStep (cfg : Config) (s : State) (d : Dom) (env : IrqEnv) : State :=
  let c := (s.chrif d).irqStep cfg env
  let s' := s.setChrif d c
  match (s.chrif d).irq with
  | .idle => s'.enter d
  | .finalCheck => if c.irq = .fetch then s'.enter d else s'
  | .serve r _ => if (s.chrif d).operation r = .write then s'.pushWrite cfg d r else s'
  | .fetch | .scan _ | .dead => s'

def respond (s : State) (n : Nat) : State :=
  match s.tasks n with
  | .native d r _ => s.setChrif d ((s.chrif d).makeResponse r)
  | .remote => s

def passes (cfg : Config) (s : State) (n : Nat) (stage : Stage) : Bool :=
  match s.tasks n with
  | .native d _ _ => (s.chrif d).passes cfg stage
  | .remote => false

def reqStep (cfg : Config) (s : State) : State :=
  if !cfg.devOn then s
  else match s.reqThrd with
  | .wait => if s.wakes .native .reqthrd then { s with reqThrd := .pop } else s
  | .pop =>
    match s.queues.front .native with
    | none => { s.pop .native with reqThrd := .dead none }
    | some n =>
      { s.pop .native with reqThrd := match s.tasks n with
        | .native _ _ _ => .writeResp n .resetReg
        | .remote => .remoteOp n }
  | .writeResp n stage =>
    if !s.passes cfg n stage then { s with reqThrd := .dead (some n) }
    else
      { s with reqThrd := match stage.next with
        | some stage' => .writeResp n stage'
        | none => .readData n }
  | .readData n =>
    if !cfg.passesRead then { s with reqThrd := .dead (some n) }
    else { s with reqThrd := .respond n }
  | .respond n => { s.respond n with reqThrd := .wait }
  | .remoteOp n =>
    if cfg.passesRemote then
      { (s.kmallocTask .remote).push .sendtocli s.nextTask with reqThrd := .wait }
    else { s with reqThrd := .dead (some n) }
  | .dead _ => s

/-- `xen_sock_recvmsg_from_client` makes a task of every receive. -/
def recvmsgFromClient (s : State) (received : Bool) : State :=
  if received then (s.kmallocTask .remote).push .native s.nextTask else s

def completeWaitser (s : State) (n : Nat) : State :=
  match s.tasks n with
  | .native d _ _ =>
    s.setChrif d { s.chrif d with compWaitser := (s.chrif d).compWaitser + 1 }
  | .remote => s

/-- `wait_for_completion(&chrif->comp_waitser)` gets through. -/
def waitser (s : State) (n : Nat) : Option State :=
  match s.tasks n with
  | .native d _ _ =>
    let c := s.chrif d
    if c.compWaitser = 0 then none
    else some (s.setChrif d { c with compWaitser := c.compWaitser - 1 })
  | .remote => none

def clientStep (cfg : Config) (s : State) (received : Bool) : State :=
  match s.conThrd with
  | .wait => if s.wakes .remote .conthrd then { s with conThrd := .pop } else s
  | .pop =>
    match s.queues.front .remote with
    | none => { s.pop .remote with conThrd := .dead none }
    | some n => { s.pop .remote with conThrd := .writeResp n .resetReg }
  | .writeResp n stage =>
    if !s.passes cfg n stage then { s with conThrd := .dead (some n) }
    else
      { s with conThrd := match stage.next with
        | some stage' => .writeResp n stage'
        | none => .waitSer n }
  | .waitSer n =>
    match s.waitser n with
    | none => s
    | some s' => { s' with conThrd := .send n }
  | .send n => { s with conThrd := .submit n }
  | .submit n => { s.push .submit n with conThrd := .recv }
  | .recv =>
    match s.queues.front .submit with
    | none => { s.pop .submit with conThrd := .dead none }
    | some n => { s.pop .submit with conThrd := .recvmsg n }
  | .recvmsg n =>
    if received then
      { s.completeWaitser n with
        recvServerResp := s.recvServerResp + 1
        conThrd := .waitResp n }
    else s
  | .waitResp _ =>
    if s.recvServerResp = 0 then s
    else { s with recvServerResp := s.recvServerResp - 1, conThrd := .wait }
  | .dead _ => s

def conStep (cfg : Config) (s : State) (received : Bool) : State :=
  if cfg.devOn then s.recvmsgFromClient received else s.clientStep cfg received

def sendStep (s : State) : State :=
  match s.sender with
  | .wait => if s.wakes .sendtocli .sender then { s with sender := .pop } else s
  | .pop =>
    match s.queues.front .sendtocli with
    | none => { s.pop .sendtocli with sender := .dead }
    | some n => { s.pop .sendtocli with sender := .send n }
  | .send n => { s.kfreeTask n with sender := .wait }
  | .dead => s

def put (s : State) (d : Dom) (op : Op) : State :=
  s.setChrif d { s.chrif d with reqs := (s.chrif d).reqs ++ [op] }

end State

/-- `irq` and `conthrd` as in `NetDom0.Label`; `kthreadStop` is what `kthread_stop` does
before it waits for the thread. -/
inductive Label where
  | put (d : Dom) (op : Op)
  | irq (d : Dom) (env : IrqEnv)
  | reqthrd
  | conthrd (received : Bool)
  | sendtocli
  | kthreadStop (t : Thread)

def step (cfg : Config) (s : State) : Label → Option State
  | .put d op => some (s.put d op)
  | .irq d env => some (s.irqStep cfg d env)
  | .reqthrd => some ((s.note .reqthrd (cfg.devOn && s.reqThrd.touches)).reqStep cfg)
  | .conthrd received =>
    some ((s.note .conthrd (!cfg.devOn && s.conThrd.touches)).conStep cfg received)
  | .sendtocli => some (s.note .sender s.sender.touches).sendStep
  | .kthreadStop t => some { s with stopped := t :: s.stopped }

theorem step_total (cfg : Config) (s : State) (l : Label) : ∃ t, step cfg s l = some t := by
  cases l <;> exact ⟨_, rfl⟩

end PdmaXen.NetDom0.Objects
