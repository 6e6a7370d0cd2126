import PdmaXen.NetDom0.DeviceFile

/-!
# The module from `dom_init` to `dom_exit`

What `dom_init`, `device_probe`, `xen_remote_thread` and `dom_exit` acquire, publish
and give back, with the back end running in between. A step is one of their calls, so
that probes, requests and the rest of `dom_init` come in any order.
-/

namespace PdmaXen.NetDom0.Startup
set_option autoImplicit false
open Machine

/-- `sockMem` is the `struct socket` whose only pointer `sock_create_kern` overwrites. -/
inductive Resource where
  | chrbk | pendingReqs | remoteInfo | remoteBuf | file
  | nativeQueue | sendtocliQueue | remoteQueue | submitQueue
  | driver | reqthrd | conthrd
  | sockMem | socket
deriving DecidableEq

/-- The statement of `dom_init` that comes next. -/
inductive InitPc where
  | chrbk
  | pendingReqs
  | remoteInfo
  | remoteBuf
  | openDev
  | firstQueue
  | secondQueue
  | pendingFree
  | xenbusInit
  | reqthrd
  | conthrd
  | returned (err : Int)
  | faulted
deriving DecidableEq

/-- Where `device_probe` of a front end is: `first` has read `pdma_info_flags == 0`, `asking`
is in `get_pdma_info`. `info` is `chrif->pdma_info`; `answered` is history, what
`get_pdma_info` had left last when it was copied. -/
inductive ProbePc where
  | absent
  | first
  | asking
  | copying
  | probed (info : PdmaInfo) (answered : Option PdmaInfo)
  | faulted

/-- What `kthread_run` returned. -/
inductive ThreadPtr where
  | null | errPtr | created
deriving DecidableEq

/-- Where `xen_remote_thread` is before its loop. -/
inductive SockPc where
  | alloc | create | bind | ready
deriving DecidableEq

/-- `reqs` is the parameter `xen_chrif_reqs` of the module; for `strayCall` see `Config`. -/
structure Env where
  ringSize : Nat
  strayCall : Bool
  reqs : Int

/-- `fileOpen` as in `Filp`: the pointer `dom_exit` has closed goes to no file. `pendingReqs`,
`remoteInfo` and `firstQueue` say which allocations succeeded. The last five are history:
what was acquired and released, whether the file was closed under a thread that uses it,
what `get_pdma_info` has left last, and every block size divided by. -/
structure State where
  init : InitPc := .chrbk
  exit : ExitPc := .loaded
  filp : Filp := .null
  pendingReqs : Bool := false
  remoteInfo : Bool := false
  firstQueue : Bool := false
  registered : Bool := false
  pdmaInfoFlags : Int := 0
  pdmaInfo : PdmaInfo := ⟨0, 0⟩
  probes : Dom → ProbePc := fun _ => .absent
  reqthrd : ThreadPtr := .null
  conthrd : ThreadPtr := .null
  sock : SockPc := .alloc
  sockMade : Bool := false
  reqStop : Bool := false
  conStop : Bool := false
  backend : Backend := {}
  acquired : List Resource := []
  released : List Resource := []
  early : Bool := false
  answered : Option PdmaInfo := none
  divided : List UInt32 := []

def start : State := {}

/-- What the kernel answers `dom_init`: whether the call succeeds, and what `filp_open`
returns. -/
structure InitAnswer where
  ok : Bool
  filp : Filp := .null

/-- What `get_pdma_info` meets: whether the file opens, and what the ioctl leaves in
`pdma_info`, whatever it returns. -/
structure InfoAnswer where
  opens : Bool
  left : PdmaInfo

namespace State

def devOn (s : State) : Bool := s.filp != .null

def config (env : Env) (s : State) (info : PdmaInfo) : Config :=
  { filp := s.filp, info, ringSize := env.ringSize, strayCall := env.strayCall }

def acquire (s : State) (r : Resource) (ok : Bool) : State :=
  { s with acquired := s.acquired ++ if ok then [r] else [] }

def release (s : State) (r : Resource) : State := { s with released := s.released ++ [r] }

/-- `xen_chrif_xenbus_init`; the result of `xenbus_register_backend` is not looked at. -/
def xenChrifXenbusInit (s : State) (registers : Bool) : State × Int :=
  ({ s.acquire .driver registers with pdmaInfoFlags := 0, registered := registers }, 0)

def failedInit (s : State) (err : Int) : State :=
  { s with
    released := s.released ++ (if s.pendingReqs then [.pendingReqs] else []) ++ [.chrbk]
    init := .returned err }

/-- One statement of `dom_init`. An allocation is used where the source first does so. -/
def initStep (env : Env) (s : State) (a : InitAnswer) : State :=
  match s.init with
  | .chrbk => { s.acquire .chrbk a.ok with init := if a.ok then .pendingReqs else .faulted }
  | .pendingReqs =>
    { s.acquire .pendingReqs a.ok with pendingReqs := a.ok, init := .remoteInfo }
  | .remoteInfo => { s.acquire .remoteInfo a.ok with remoteInfo := a.ok, init := .remoteBuf }
  | .remoteBuf =>
    { s.acquire .remoteBuf a.ok with init := if s.remoteInfo then .openDev else .faulted }
  | .openDev =>
    { s.acquire .file (a.filp == .opened) with filp := a.filp, init := .firstQueue }
  | .firstQueue =>
    { s.acquire (if s.devOn then .nativeQueue else .remoteQueue) a.ok with
      firstQueue := a.ok, init := .secondQueue }
  -- xen_queue_init of both
  | .secondQueue =>
    { s.acquire (if s.devOn then .sendtocliQueue else .submitQueue) a.ok with
      init := if s.firstQueue && a.ok then .pendingFree else .faulted }
  | .pendingFree =>
    { s with init := if env.reqs ≤ 0 || s.pendingReqs then .xenbusInit else .faulted }
  | .xenbusInit =>
    let (s', err) := s.xenChrifXenbusInit a.ok
    if err ≠ 0 then s'.failedInit err
    else { s' with init := if s.devOn then .reqthrd else .conthrd }
  | .reqthrd =>
    { s.acquire .reqthrd a.ok with
      reqthrd := if a.ok then .created else .null, init := .conthrd }
  | .conthrd =>
    { s.acquire .conthrd a.ok with
      conthrd := if a.ok then .created else .errPtr, init := .returned 0 }
  | .returned _ | .faulted => s

def setProbe (s : State) (d : Dom) (pc : ProbePc) : State :=
  { s with probes := Function.update s.probes d pc }

@[simp] theorem setProbe_self (s : State) (d : Dom) (pc : ProbePc) :
    (s.setProbe d pc).probes d = pc := by
  simp [setProbe]

theorem setProbe_of_ne (s : State) {d d' : Dom} (hd : d' ≠ d) (pc : ProbePc) :
    (s.setProbe d pc).probes d' = s.probes d' := by
  simp [setProbe, hd]

/-- One step of `device_probe`; a device that is removed and comes back is another `d`. -/
def probeStep (s : State) (d : Dom) (a : InfoAnswer) : State :=
  if !s.registered then s
  else match s.probes d with
  | .absent => s.setProbe d (if s.pdmaInfoFlags = 0 then .first else .copying)
  | .first => { s.setProbe d (if s.devOn then .asking else .copying) with pdmaInfoFlags := -1 }
  -- get_pdma_info, and at the latest its filp_close faults without a file
  | .asking =>
    if a.opens then
      { s.setProbe d .copying with pdmaInfo := a.left, answered := some a.left }
    else s.setProbe d .faulted
  | .copying => s.setProbe d (.probed s.pdmaInfo s.answered)
  | .probed _ _ | .faulted => s

def sockStep (env : Env) (s : State) (ok : Bool) : State :=
  if s.conthrd ≠ .created then s
  else match s.sock with
  | .alloc => { s.acquire .sockMem ok with sock := .create }
  | .create =>
    { s.acquire .socket ok with sockMade := ok, sock := if s.devOn then .bind else .ready }
  -- kernel_bind through a pointer to no socket
  | .bind =>
    if !s.sockMade && !env.strayCall then { s with backend := { s.backend with conThrd := .dead } }
    else { s with sock := .ready }
  | .ready => s

def isProbed (s : State) (d : Dom) : Bool :=
  match s.probes d with
  | .probed _ _ => true
  | _ => false

/-- `chrif->pdma_info`; no request comes from a front end that is not probed. -/
def chrifInfo (s : State) (d : Dom) : PdmaInfo :=
  match s.probes d with
  | .probed info _ => info
  | _ => ⟨0, 0⟩

def reqInfo (s : State) : PdmaInfo :=
  match s.backend.reqThrd with
  | .writeResp d _ _ | .readData d _ => s.chrifInfo d
  | _ => s.pdmaInfo

def conInfo (s : State) : PdmaInfo :=
  match s.backend.conThrd with
  | .writeResp d _ _ => s.chrifInfo d
  | _ => s.pdmaInfo

/-- Asked to stop, `xen_req_thread` pops its empty queue and takes NULL for a task. -/
def reqPopsNull (s : State) : Bool :=
  s.reqStop && s.backend.reqThrd == .wait && s.backend.nativeQueue == []

def conPopsNull (s : State) : Bool :=
  !s.devOn && s.conStop && s.backend.conThrd == .wait && s.backend.remoteQueue == []

/-- `xen_remote_thread` is at a call through `remote_info->sock`. -/
def usesSock (s : State) : Bool :=
  s.devOn || match s.backend.conThrd with
    | .send _ _ | .recvmsg _ _ _ => true
    | _ => false

end State

/-- A block size of a division. -/
inductive Divisor where
  | writeResp (d : Dom)
  | readData (d : Dom)
  | remote

def Divisor.size (s : State) : Divisor → UInt32
  | .writeResp d => (s.chrifInfo d).wtBlockSz
  | .readData d => (s.chrifInfo d).rdBlockSz
  | .remote => s.pdmaInfo.wtBlockSz

namespace State

def reqDivides (env : Env) (s : State) : Option Divisor :=
  match s.backend.reqThrd with
  | .writeResp d _ .account => some (.writeResp d)
  | .readData d _ => if (s.config env s.pdmaInfo).usable then some (.readData d) else none
  | .remoteOp => if (s.config env s.pdmaInfo).usable then some .remote else none
  | _ => none

def conDivides (s : State) : Option Divisor :=
  match s.backend.conThrd with
  | .writeResp d _ .account => some (.writeResp d)
  | _ => none

def divides (env : Env) (s : State) : Label → Option Divisor
  | .reqthrd => if s.reqthrd = .created ∧ s.devOn then s.reqDivides env else none
  | .conthrd _ =>
    if s.conthrd = .created ∧ s.sock = .ready ∧ s.devOn = false then s.conDivides else none
  | _ => none

def next (env : Env) (s : State) : Label → Backend
  | .put d op => if s.isProbed d then s.backend.put d op else s.backend
  | .irq d irqEnv =>
    if s.isProbed d then s.backend.irqStep (s.config env s.pdmaInfo) d irqEnv
    else s.backend
  | .reqthrd =>
    if s.reqthrd ≠ .created then s.backend
    else if s.reqPopsNull then { s.backend with reqThrd := .dead }
    else s.backend.reqStep (s.config env s.reqInfo)
  | .conthrd datagram =>
    if s.conthrd ≠ .created ∨ s.sock ≠ .ready then s.backend
    else if s.conPopsNull then { s.backend with conThrd := .dead }
    else if s.usesSock && !s.sockMade && !env.strayCall then { s.backend with conThrd := .dead }
    else s.backend.conStep (s.config env s.conInfo) datagram

def runStep (env : Env) (s : State) (l : Label) : State :=
  { s with
    backend := s.next env l
    divided := s.divided ++ ((s.divides env l).map (Divisor.size s)).toList }

/-- One step of `dom_exit`, which the kernel calls on a module that is loaded. A stop waits
for the end of its thread, and only a fault ends one. -/
def exitStep (s : State) : State :=
  if s.init ≠ .returned 0 then s
  else match s.exit with
  | .loaded =>
    match s.filp with
    | .null => { s with exit := .stopReq }
    | .opened =>
      { s.release .file with
        filp := .errPtr
        early := s.early || s.reqthrd == .created && s.backend.reqThrd != .dead
        exit := .stopReq }
    | .errPtr => { s with exit := .faulted }
  | .stopReq =>
    if s.reqthrd = .created then { s with reqStop := true, exit := .waitReq }
    else { s with exit := .faulted }
  | .waitReq =>
    if s.backend.reqThrd = .dead then { s.release .reqthrd with exit := .stopCon } else s
  | .stopCon =>
    if s.conthrd = .created then { s with conStop := true, exit := .waitCon }
    else { s with exit := .faulted }
  | .waitCon =>
    if s.backend.conThrd = .dead then { s.release .conthrd with exit := .unregister } else s
  | .unregister =>
    { s with
      released := s.released ++ if s.registered then [.driver] else []
      registered := false
      exit := .unloaded }
  | .unloaded | .faulted => s

end State

inductive Step where
  | init (a : InitAnswer)
  | probe (d : Dom) (a : InfoAnswer)
  | sock (ok : Bool)
  | run (l : Label)
  | exit

def step (env : Env) (s : State) : Step → Option State
  | .init a => some (s.initStep env a)
  | .probe d a => some (s.probeStep d a)
  | .sock ok => some (s.sockStep env ok)
  | .run l => some (s.runStep env l)
  | .exit => some s.exitStep

/-- `dom_init` of a server all of whose calls succeed. -/
def loaded : List Step := List.replicate 11 (.init { ok := true, filp := .opened })

theorem step_total (env : Env) (s : State) (l : Step) : ∃ t, step env s l = some t := by
  cases l <;> exact ⟨_, rfl⟩

end PdmaXen.NetDom0.Startup
