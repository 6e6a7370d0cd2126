import PdmaXen.Machine
import PdmaXen.NetDom0.Wire

/-!
# The threads of a Net_Dom0 back end

The interrupt handlers of the front ends, `xen_req_thread` and
`xen_remote_thread`. A step is one section under a queue or ring lock, one access
to a ring index, one call of the device or one wait. A request is known by its
front end and its free-running index on the ring.
-/

namespace PdmaXen.NetDom0
set_option autoImplicit false

abbrev Dom := Nat
abbrev Req := Nat

inductive Op where
  | write | ioctl | map | unknown
deriving DecidableEq

/-- What `chrbk->chrif_filp` holds after `filp_open`. -/
inductive Filp where
  | opened | null | errPtr
deriving DecidableEq

/-- What stays the same while the module is loaded. `strayCall` says what a call
through a pointer to no file does: fault, or come back as if it had succeeded. -/
structure Config where
  filp : Filp
  info : PdmaInfo
  ringSize : Nat
  strayCall : Bool := false

/-- The role `dom_init` takes: server with a device, client without. -/
def Config.devOn (cfg : Config) : Bool := cfg.filp != .null

def clientConfig (info : PdmaInfo) (ringSize : Nat) (strayCall : Bool) : Config :=
  { filp := .null, info, ringSize, strayCall }

def serverConfig (info : PdmaInfo) (ringSize : Nat) : Config := { filp := .opened, info, ringSize }

def Config.usable (cfg : Config) : Bool := cfg.filp == .opened || cfg.strayCall

/-- What the environment answers a step of a handler: `kthread_should_stop`, `alloc_req`,
and how many pages of a MAP the hypervisor maps before it refuses one. -/
structure IrqEnv where
  stop : Bool := false
  pendingReq : Bool := true
  granted : Nat := shareMemoryPn

/-- The part of `do_write_resp` before it branches on the role. -/
inductive Stage where
  | resetReg | account | lenReg | blocks | clear
deriving DecidableEq

def Stage.next : Stage → Option Stage
  | .resetReg => some .account
  | .account => some .lenReg
  | .lenReg => some .blocks
  | .blocks => some .clear
  | .clear => none

/-- `do_read_data` calls the device and divides by the read block size. -/
def Config.passesRead (cfg : Config) : Bool := cfg.usable && cfg.info.rdBlockSz != 0

/-- `do_resp_remote_io_op` calls the device and divides by the write block size. -/
def Config.passesRemote (cfg : Config) : Bool := cfg.usable && cfg.info.wtBlockSz != 0

/-- Where `do_char_io_op` is; `rc` is `req_cons` all along. -/
inductive IrqPc where
  | idle
  | fetch
  | scan (rp : Nat)
  | serve (r : Req) (rp : Nat)
  | finalCheck
  | dead
deriving DecidableEq

/-- `type` 0 and 1 of a `req_task`. -/
inductive Task where
  | native (d : Dom) (r : Req)
  | remote
deriving DecidableEq

inductive ReqPc where
  | wait
  | writeResp (d : Dom) (r : Req) (stage : Stage)
  | readData (d : Dom) (r : Req)
  | respond (d : Dom) (r : Req)
  | remoteOp
  | dead
deriving DecidableEq

/-- Where the client's `dispatch_remote_queue` is. `recvmsg` waits for the reply
to the task `(d', r')` taken from `submit_queue`. -/
inductive ConPc where
  | wait
  | writeResp (d : Dom) (r : Req) (stage : Stage)
  | waitSer (d : Dom) (r : Req)
  | send (d : Dom) (r : Req)
  | submit (d : Dom) (r : Req)
  | recv (d : Dom) (r : Req)
  | recvmsg (d : Dom) (r : Req) (d' : Dom)
  | waitResp (d : Dom) (r : Req)
  | dead
deriving DecidableEq

/-- `struct xen_chrif` and its ring. `mapped` counts the pages mapped from `map_pages[0]`
on. `responses` and `unanswered` are history: the requests answered, and those the code
is done with, or died on, without an answer. -/
structure Chrif where
  reqs : List Op := []
  reqCons : Nat := 0
  rspProdPvt : Nat := 0
  mapped : Nat := 0
  irq : IrqPc := .idle
  compWaitser : Nat := 0
  responses : List Req := []
  unanswered : List Req := []

/-- `dequeued` and `sent` are history of the client. -/
structure Backend where
  chrif : Dom → Chrif := fun _ => {}
  nativeQueue : List Task := []
  sendtocliQueue : Nat := 0
  remoteQueue : List (Dom × Req) := []
  submitQueue : List (Dom × Req) := []
  reqThrd : ReqPc := .wait
  conThrd : ConPc := .wait
  recvServerResp : Nat := 0
  dequeued : List (Dom × Req) := []
  sent : List (Dom × Req) := []

/-- The front ends before their first requests; an earlier connection of a front end may
have left pages mapped. -/
def connected (mapped : Dom → Nat) : Dom → Chrif := fun d => { mapped := mapped d }

namespace Backend

def start (mapped : Dom → Nat) : Backend := { chrif := connected mapped }

def setChrif (s : Backend) (d : Dom) (c : Chrif) : Backend :=
  { s with chrif := Function.update s.chrif d c }

@[simp] theorem setChrif_self (s : Backend) (d : Dom) (c : Chrif) :
    (s.setChrif d c).chrif d = c := by simp [setChrif]

@[simp] theorem setChrif_of_ne (s : Backend) {d d' : Dom} (c : Chrif) (h : d' ≠ d) :
    (s.setChrif d c).chrif d' = s.chrif d' := by simp [setChrif, h]

end Backend

namespace Chrif

def makeResponse (c : Chrif) (r : Req) : Chrif :=
  { c with rspProdPvt := c.rspProdPvt + 1, responses := c.responses ++ [r] }

def drop (c : Chrif) (r : Req) : Chrif := { c with unanswered := c.unanswered ++ [r] }

def setIrq (c : Chrif) (pc : IrqPc) : Chrif := { c with irq := pc }

/-- `xen_chrbk_map`: `map_pages[0]` goes to a new area, of which as many pages are mapped. -/
def xenChrbkMap (c : Chrif) (granted : Nat) : Chrif := { c with mapped := granted }

/-- The stage comes back. The `memset` at the end of it faults on a page that is not mapped. -/
def passes (cfg : Config) (c : Chrif) : Stage → Bool
  | .resetReg | .lenReg | .blocks => cfg.usable
  | .account => cfg.info.wtBlockSz != 0
  | .clear => shareMemoryPn ≤ c.mapped

def operation (c : Chrif) (r : Req) : Op := c.reqs.getD r .unknown

def consOverflow (c : Chrif) (ringSize : Nat) : Bool := c.reqCons - c.rspProdPvt ≥ ringSize

def unconsumed (c : Chrif) (ringSize : Nat) : Nat :=
  min (c.reqs.length - c.reqCons) (ringSize - (c.reqCons - c.rspProdPvt))

def pushes (c : Chrif) : Option Req :=
  match c.irq with
  | .serve r _ => if c.operation r = .write then some r else none
  | _ => none

/-- The steps of `do_char_io_op` that touch nothing but the front end's own state. -/
def irqStep (cfg : Config) (c : Chrif) (env : IrqEnv) : Chrif :=
  match c.irq with
  | .idle => c.setIrq .fetch
  | .fetch => c.setIrq (.scan c.reqs.length)
  | .scan rp =>
    if c.reqCons = rp then c.setIrq .finalCheck
    else if c.consOverflow cfg.ringSize then c.setIrq .finalCheck
    else if env.stop then c.setIrq .idle
    else if !env.pendingReq then c.setIrq .idle
    else { c with reqCons := c.reqCons + 1, irq := .serve c.reqCons rp }
  | .serve r rp =>
    match c.operation r with
    | .write => c.setIrq (.scan rp)
    | .ioctl =>
      if cfg.usable then (c.makeResponse r).setIrq (.scan rp) else (c.drop r).setIrq .dead
    | .map => ((c.xenChrbkMap env.granted).drop r).setIrq (.scan rp)
    | .unknown => (c.makeResponse r).setIrq (.scan rp)
  | .finalCheck => c.setIrq (if c.unconsumed cfg.ringSize > 0 then .fetch else .idle)
  | .dead => c

end Chrif

namespace Backend

/-- A WRITE goes to `native_queue` of a server and to `remote_queue` of a client. -/
def pushTask (cfg : Config) (s : Backend) (d : Dom) (r : Req) : Backend :=
  if cfg.devOn then { s with nativeQueue := s.nativeQueue ++ [.native d r] }
  else { s with remoteQueue := s.remoteQueue ++ [(d, r)] }

def irqStep (cfg : Config) (s : Backend) (d : Dom) (env : IrqEnv) : Backend :=
  let s' := s.setChrif d ((s.chrif d).irqStep cfg env)
  match (s.chrif d).pushes with
  | some r => s'.pushTask cfg d r
  | none => s'

def lose (s : Backend) (d : Dom) (r : Req) : Backend := s.setChrif d ((s.chrif d).drop r)

def respond (s : Backend) (d : Dom) (r : Req) : Backend :=
  s.setChrif d ((s.chrif d).makeResponse r)

/-- One step of `xen_req_thread`; only a server starts it. -/
def reqStep (cfg : Config) (s : Backend) : Backend :=
  if !cfg.devOn then s
  else match s.reqThrd with
  | .wait =>
    match s.nativeQueue with
    | [] => s
    | .native d r :: rest =>
      { s with nativeQueue := rest, reqThrd := .writeResp d r .resetReg }
    | .remote :: rest => { s with nativeQueue := rest, reqThrd := .remoteOp }
  | .writeResp d r stage =>
    if !(s.chrif d).passes cfg stage then { s.lose d r with reqThrd := .dead }
    else
      { s with reqThrd := match stage.next with
        | some stage' => .writeResp d r stage'
        | none => .readData d r }
  | .readData d r =>
    if !cfg.passesRead then { s.lose d r with reqThrd := .dead }
    else { s with reqThrd := .respond d r }
  | .respond d r => { s.respond d r with reqThrd := .wait }
  | .remoteOp =>
    if cfg.passesRemote then { s with sendtocliQueue := s.sendtocliQueue + 1, reqThrd := .wait }
    else { s with reqThrd := .dead }
  | .dead => s

/-- One step of `xen_remote_thread`. `datagram` says whether one can be received. -/
def conStep (cfg : Config) (s : Backend) (datagram : Bool) : Backend :=
  if cfg.devOn then
    -- xen_sock_recvmsg_from_client
    if datagram then { s with nativeQueue := s.nativeQueue ++ [.remote] } else s
  else match s.conThrd with
  | .wait =>
    match s.remoteQueue with
    | [] => s
    | (d, r) :: rest =>
      { s with
        remoteQueue := rest
        conThrd := .writeResp d r .resetReg
        dequeued := s.dequeued ++ [(d, r)] }
  | .writeResp d r stage =>
    if !(s.chrif d).passes cfg stage then { s.lose d r with conThrd := .dead }
    else
      -- without a device the thread waits for the server
      { s with conThrd := match stage.next with
        | some stage' => .writeResp d r stage'
        | none => .waitSer d r }
  | .waitSer d r =>
    let c := s.chrif d
    if c.compWaitser = 0 then s
    else { s.setChrif d { c with compWaitser := c.compWaitser - 1 } with conThrd := .send d r }
  | .send d r => { s with sent := s.sent ++ [(d, r)], conThrd := .submit d r }
  | .submit d r => { s with submitQueue := s.submitQueue ++ [(d, r)], conThrd := .recv d r }
  | .recv d r =>
    match s.submitQueue with
    | [] => { s.lose d r with conThrd := .dead }
    | (d', _) :: rest => { s with submitQueue := rest, conThrd := .recvmsg d r d' }
  | .recvmsg d r d' =>
    if datagram then
      let c := s.chrif d'
      { s.setChrif d' { c with compWaitser := c.compWaitser + 1 } with
        recvServerResp := s.recvServerResp + 1
        conThrd := .waitResp d r }
    else s
  | .waitResp d r =>
    if s.recvServerResp = 0 then s
    -- the task is dropped and nobody answers the front end
    else { s.lose d r with recvServerResp := s.recvServerResp - 1, conThrd := .wait }
  | .dead => s

end Backend

inductive Label where
  | put (d : Dom) (op : Op)
  | irq (d : Dom) (env : IrqEnv)
  | reqthrd
  | conthrd (datagram : Bool)

def Backend.put (s : Backend) (d : Dom) (op : Op) : Backend :=
  s.setChrif d { s.chrif d with reqs := (s.chrif d).reqs ++ [op] }

def step (cfg : Config) (s : Backend) : Label → Option Backend
  | .put d op => some (s.put d op)
  | .irq d env => some (s.irqStep cfg d env)
  | .reqthrd => some (s.reqStep cfg)
  | .conthrd datagram => some (s.conStep cfg datagram)

/-- A thread that waits makes a step that changes nothing, so every label is enabled. -/
theorem step_total (cfg : Config) (s : Backend) (l : Label) : ∃ t, step cfg s l = some t := by
  cases l <;> exact ⟨_, rfl⟩

namespace Backend
variable (s : Backend) (cfg : Config) (d : Dom) (env : IrqEnv)

theorem chrif_irqStep : (s.irqStep cfg d env).chrif
    = (s.setChrif d ((s.chrif d).irqStep cfg env)).chrif := by
  unfold irqStep pushTask
  cases (s.chrif d).pushes with
  | none => rfl
  | some r =>
    simp only
    split <;> rfl

theorem irqStep_frame : (s.irqStep cfg d env).conThrd = s.conThrd ∧
    (s.irqStep cfg d env).dequeued = s.dequeued ∧
    (s.irqStep cfg d env).sent = s.sent := by
  unfold irqStep pushTask
  cases (s.chrif d).pushes with
  | none => exact ⟨rfl, rfl, rfl⟩
  | some r =>
    simp only
    split <;> exact ⟨rfl, rfl, rfl⟩

end Backend

end PdmaXen.NetDom0
