import PdmaXen.NetDom0.Backend
import PdmaXen.NetDom0.Native

/-!
# The server, one device operation at a time

The interrupt handlers, `xen_req_thread` and `xen_remote_thread` of a back end with
a device, with the one receive buffer and the one peer address all clients share. A
step is one section under a queue lock, one call of the device or of a socket, or
one access to the shared buffer.
-/

namespace PdmaXen.NetDom0.Server
set_option autoImplicit false
open Bytes

abbrev Peer := Nat

structure Datagram where
  bytes : List UInt8
  peer : Peer

/-- A `req_task` on `native_queue`. A remote task is known by the number of the
receive that made it; its `data` is `chrbk->remote_info` like that of every other. -/
inductive Task where
  | native (d : Dom) (r : Req)
  | remote (n : Nat)
deriving DecidableEq

/-- What reaches the device: an operation of a task, a statistics query, an info query. -/
inductive Event where
  | op (t : Task) (o : DevOp)
  | stat (d : Dom)
  | info

/-- Where `do_write_resp` and `do_read_data` are. -/
inductive NativePc where
  | resetReg
  | account
  | lenReg (wtCount : Nat)
  | write (i wtCount : Nat)
  | clear
  | readReg
  | read (i rdCount : Nat)
  | resetAfter
  | respond
deriving DecidableEq

/-- Where `do_resp_remote_io_op` is. `addr` is what `ctrl.addr` holds, `reg` and `got`
what the device has answered so far. -/
inductive RemotePc where
  | load
  | lenReg (addr length : UInt32)
  | write (addr length : UInt32) (i : Nat)
  | readReg (addr length : UInt32)
  | read (addr length : UInt32) (reg : Option UInt32) (got : List (Option (List UInt8)))
  | push (addr length : UInt32) (reg : Option UInt32) (got : List (Option (List UInt8)))
deriving DecidableEq

/-- `dead` keeps the task whose service faulted. -/
inductive ServicePc where
  | wait
  | native (d : Dom) (r : Req) (pc : NativePc)
  | remote (n : Nat) (pc : RemotePc)
  | dead (t : Task)
deriving DecidableEq

inductive SocketPc where
  | recv
  | push (n : Nat)
deriving DecidableEq

inductive SendPc where
  | wait
  | send (n : Nat)
deriving DecidableEq

/-- A return of `kernel_recvmsg`: the buffer before it, and the datagram unless it failed. -/
structure Arrival where
  before : Nat → UInt8
  datagram : Option Datagram

/-- A datagram given to `kernel_sendmsg` for task `task`. -/
structure Reply where
  task : Nat
  peer : Peer
  bytes : List UInt8

/-- A remote task that is done: what `ctrl.addr` held, and what the device answered. -/
structure Executed where
  task : Nat
  addr : UInt32
  reg : Option UInt32
  got : List (Option (List UInt8))

/-- `arrivals`, `pushed`, `begun`, `finished`, `trace`, `executed` and `sent` are history. -/
structure State where
  chrif : Dom → Chrif := fun _ => {}
  nativeQueue : List Task := []
  sendtocliQueue : List Nat := []
  service : ServicePc := .wait
  socket : SocketPc := .recv
  sender : SendPc := .wait
  remoteBuf : Nat → UInt8
  remoteLength : UInt32 := 0
  serverAddr : Peer := 0
  arrivals : List Arrival := []
  pushed : List Task := []
  begun : List Task := []
  finished : List Task := []
  trace : List Event := []
  executed : List Executed := []
  sent : List Reply := []

/-- The server after `dom_init`; the receive buffer holds anything. -/
def start (mapped : Dom → Nat) (remoteBuf : Nat → UInt8) : State :=
  { chrif := connected mapped, remoteBuf }

/-- What the environment answers a step of the service thread: `length` and `data` are what
the guest's slot and pages hold, `addr` is the stale `ctrl.addr`, `stale` the stale `ctrl.val`. -/
structure ServiceEnv where
  length : UInt32 := 0
  data : List UInt8 := []
  reg : Option UInt32 := none
  block : Option (List UInt8) := none
  addr : UInt32 := 0
  stale : UInt32 := 0

/-- What `kernel_recvmsg` does: block, fail, or return a datagram. -/
inductive Received where
  | nothing
  | failed
  | datagram (d : Datagram)

def getSendLen (length : UInt32) : UInt32 :=
  let codeByte := (length - 32) / 64
  let codeByte := if codeByte % 4 != 0 then codeByte / 4 + 1 else codeByte / 4
  codeByte * 8

/-- `wtcount` and `wt_count` -/
def writeBlocks (info : PdmaInfo) (length : UInt32) : Nat :=
  (blockCount length info.wtBlockSz).toInt32.toNatClampNeg

/-- `rdcount` of `do_resp_remote_io_op`, with the write block size. -/
def remoteReadBlocks (info : PdmaInfo) (val : UInt32) : Nat :=
  let count := (blockCount val info.wtBlockSz).toInt32
  if count == 0 then 1 else count.toNatClampNeg

namespace State

def push (s : State) (t : Task) : State :=
  { s with nativeQueue := s.nativeQueue ++ [t], pushed := s.pushed ++ [t] }

def operate (s : State) (t : Task) (o : DevOp) : State := { s with trace := s.trace ++ [.op t o] }

def finish (s : State) (t : Task) : State :=
  { s with finished := s.finished ++ [t], service := .wait }

def nativeStep (cfg : Config) (s : State) (env : ServiceEnv) (d : Dom) (r : Req) :
    NativePc → State
  | .resetReg =>
    if !cfg.usable then { s with service := .dead (.native d r) }
    else { s.operate (.native d r) (.regWrite 0 1) with service := .native d r .account }
  | .account =>
    if cfg.info.wtBlockSz == 0 then { s with service := .dead (.native d r) }
    else { s with service := .native d r (.lenReg (writeBlocks cfg.info env.length)) }
  | .lenReg wtCount =>
    if !cfg.usable then { s with service := .dead (.native d r) }
    else
      { s.operate (.native d r) (.regWrite 0 ((env.length / 8) <<< 19)) with
        service := .native d r (.write 0 wtCount) }
  | .write i wtCount =>
    if i < wtCount then
      if !cfg.usable then { s with service := .dead (.native d r) }
      else
        { s.operate (.native d r) (.write env.data) with
          service := .native d r (.write (i + 1) wtCount) }
    else { s with service := .native d r .clear }
  | .clear =>
    if !(s.chrif d).passes cfg .clear then { s with service := .dead (.native d r) }
    else { s with service := .native d r .readReg }
  | .readReg =>
    if !cfg.usable then { s with service := .dead (.native d r) }
    else
      let s' := s.operate (.native d r) (.regRead 0)
      if cfg.info.rdBlockSz == 0 then { s' with service := .dead (.native d r) }
      else
        let length := (env.reg.getD env.stale).toInt32
        let rdCount := (readCount length cfg.info.rdBlockSz.toInt32).toNatClampNeg
        { s' with service := .native d r (.read 0 rdCount) }
  | .read i rdCount =>
    if i < rdCount then
      if !cfg.usable then { s with service := .dead (.native d r) }
      else
        { s.operate (.native d r)
            (.read (Int32.ofNat i * cfg.info.rdBlockSz.toInt32).toNatClampNeg
              cfg.info.rdBlockSz.toNat) with
          service := .native d r (.read (i + 1) rdCount) }
    else { s with service := .native d r .resetAfter }
  | .resetAfter =>
    if !cfg.usable then { s with service := .dead (.native d r) }
    else { s.operate (.native d r) (.regWrite 0 1) with service := .native d r .respond }
  | .respond =>
    { s with chrif := Function.update s.chrif d ((s.chrif d).makeResponse r) }.finish (.native d r)

def remoteStep (cfg : Config) (s : State) (env : ServiceEnv) (n : Nat) : RemotePc → State
  | .load =>
    let length := UInt32.ofNat (leVal (window s.remoteBuf 0 offsetLength))
    { s with remoteLength := length, service := .remote n (.lenReg env.addr length) }
  | .lenReg addr length =>
    if !cfg.usable then { s with service := .dead (.remote n) }
    else
      let s' := s.operate (.remote n) (.regWrite addr ((length / 8) <<< 19))
      if cfg.info.wtBlockSz == 0 then { s' with service := .dead (.remote n) }
      else { s' with service := .remote n (.write addr length 0) }
  | .write addr length i =>
    if i < writeBlocks cfg.info length then
      if !cfg.usable then { s with service := .dead (.remote n) }
      else
        { s.operate (.remote n)
            (.write (window s.remoteBuf
              (offsetLength + (UInt32.ofNat i * cfg.info.wtBlockSz).toNat)
              cfg.info.wtBlockSz.toNat)) with
          service := .remote n (.write addr length (i + 1)) }
    else { s with service := .remote n (.readReg addr length) }
  | .readReg addr length =>
    if !cfg.usable then { s with service := .dead (.remote n) }
    else
      { s.operate (.remote n) (.regRead addr) with
        service := .remote n (.read addr length env.reg []) }
  | .read addr length reg got =>
    if got.length < remoteReadBlocks cfg.info (reg.getD ((length / 8) <<< 19)) then
      if !cfg.usable then { s with service := .dead (.remote n) }
      else
        let off := (UInt32.ofNat got.length * cfg.info.rdBlockSz).toNat
        { s.operate (.remote n) (.read off cfg.info.rdBlockSz.toNat) with
          remoteBuf := place s.remoteBuf off (env.block.getD [])
          service := .remote n (.read addr length reg (got ++ [env.block])) }
    else { s with service := .remote n (.push addr length reg got) }
  | .push addr _ reg got =>
    { s with
      sendtocliQueue := s.sendtocliQueue ++ [n]
      executed := s.executed ++ [Executed.mk n addr reg got] }.finish (.remote n)

def reqStep (cfg : Config) (s : State) (env : ServiceEnv) : State :=
  match s.service with
  | .wait =>
    match s.nativeQueue with
    | [] => s
    | t :: rest =>
      { s with
        nativeQueue := rest
        begun := s.begun ++ [t]
        service := match t with
          | .native d r => .native d r .resetReg
          | .remote n => .remote n .load }
  | .native d r pc => s.nativeStep cfg env d r pc
  | .remote n pc => s.remoteStep cfg env n pc
  | .dead _ => s

/-- One step of `xen_remote_thread`: `kernel_recvmsg` into the shared buffer, then the
push. A receive that fails makes a task all the same. -/
def conStep (s : State) (received : Received) : State :=
  match s.socket with
  | .recv =>
    match received with
    | .nothing => s
    | .failed =>
      { s with
        arrivals := s.arrivals ++ [⟨s.remoteBuf, none⟩]
        socket := .push s.arrivals.length }
    | .datagram d =>
      { s with
        remoteBuf := xenSockRecvmsgFromClient s.remoteBuf d.bytes
        serverAddr := d.peer
        arrivals := s.arrivals ++ [⟨s.remoteBuf, some d⟩]
        socket := .push s.arrivals.length }
  | .push n => { s.push (.remote n) with socket := .recv }

/-- One step of an interrupt handler; an IOCTL asks for the statistics. -/
def irqStep (cfg : Config) (s : State) (d : Dom) (env : IrqEnv) : State :=
  let c := s.chrif d
  let s' := { s with chrif := Function.update s.chrif d (c.irqStep cfg env) }
  match c.irq with
  | .serve r _ =>
    match c.operation r with
    | .write => s'.push (.native d r)
    | .ioctl => if cfg.usable then { s' with trace := s'.trace ++ [.stat d] } else s'
    | .map | .unknown => s'
  | _ => s'

def put (s : State) (d : Dom) (op : Op) : State :=
  let c := { s.chrif d with reqs := (s.chrif d).reqs ++ [op] }
  { s with chrif := Function.update s.chrif d c }

def sendStep (s : State) : State :=
  match s.sender with
  | .wait =>
    match s.sendtocliQueue with
    | [] => s
    | n :: rest => { s with sendtocliQueue := rest, sender := .send n }
  | .send n =>
    { s with
      sent := s.sent ++
        [⟨n, s.serverAddr, window s.remoteBuf 0 (getSendLen s.remoteLength).toNat⟩]
      sender := .wait }

end State

inductive Label where
  | put (d : Dom) (op : Op)
  /-- `get_pdma_info` in `device_probe`. -/
  | probe
  | irq (d : Dom) (env : IrqEnv)
  | reqthrd (env : ServiceEnv)
  | conthrd (received : Received)

def step (cfg : Config) (s : State) : Label → Option State
  | .put d op => some (s.put d op)
  | .probe => some { s with trace := s.trace ++ [.info] }
  | .irq d env => some (s.irqStep cfg d env)
  | .reqthrd env => some (s.reqStep cfg env)
  | .conthrd received => some (s.conStep received)

/-- The server with a caller of `dispatch_sendtocli_queue`; the module starts none. -/
inductive Call where
  | thread (l : Label)
  | sendtocli

def stepWithSender (cfg : Config) (s : State) : Call → Option State
  | .thread l => step cfg s l
  | .sendtocli => some s.sendStep

theorem step_total (cfg : Config) (s : State) (l : Label) : ∃ t, step cfg s l = some t := by
  cases l <;> exact ⟨_, rfl⟩

theorem stepWithSender_total (cfg : Config) (s : State) (c : Call) :
    ∃ t, stepWithSender cfg s c = some t := by
  cases c with
  | thread l => exact step_total cfg s l
  | sendtocli => exact ⟨_, rfl⟩

end PdmaXen.NetDom0.Server
