import PdmaXen.NetDom0.Backend

/-!
# The ring memory of a front end

A request and a response share a slot of the ring; the back end keeps a pointer
into the slot, and all requests of one `__do_char_io_op` share one response
buffer. A step is one access to a slot or a buffer, or one section under a lock.
The other front ends touch nothing here: while a service thread works for them it
is not scheduled.
-/

namespace PdmaXen.NetDom0.Ring
set_option autoImplicit false

/-! ## Layout -/

/-- Memory as 32-bit words: a slot, or a response buffer. -/
abbrev Words := Nat → UInt32

/-- `id` is the first word of `struct chrif_request` and of `struct chrif_response`. -/
def idWord : Nat := 0

/-- `id`, `op_gref[16]`, `status`, `stat` of 18 words, `operation`, `chrif_filp`, `length`. -/
def reqStatusWord : Nat := 17
def reqOperationWord : Nat := 36
def reqLengthWord : Nat := 40

/-- `id`, `status`, `stat` of 18 words, `operation`, `chrif_filp`, `length`. -/
def respStatusWord : Nat := 1
def respStatWord : Nat := 2
def statWords : Nat := 18
def respOperationWord : Nat := 20
def respWords : Nat := 26

/-- `CHRIF_OP_WRITE`, `CHRIF_OP_IOCTL`, `CHRIF_OP_MAP`. -/
def operationOf (v : UInt32) : Op :=
  if v = 0 then .write else if v = 1 then .ioctl else if v = 2 then .map else .unknown

def copyResponse (slot resp : Words) : Words := fun i => if i < respWords then resp i else slot i

/-! ## State -/

/-- The assignments of `xen_make_response`, then the copy under `chr_ring_lock`. -/
inductive MakePc where
  | id | operation | status | push
deriving DecidableEq

def MakePc.next : MakePc → Option MakePc
  | .id => some .operation
  | .operation => some .status
  | .status => some .push
  | .push => none

def MakePc.word : MakePc → Option Nat
  | .id => some idWord
  | .operation => some reqOperationWord
  | .status => some reqStatusWord
  | .push => none

/-- A call of `xen_make_response`; `req` points to its slot, `resp` to its buffer. -/
structure Making where
  req : Req
  resp : Nat
  pc : MakePc := .id
deriving DecidableEq

structure Task where
  req : Req
  resp : Nat
deriving DecidableEq

def Task.making (t : Task) : Making := { req := t.req, resp := t.resp }

/-- Where `do_char_io_op` is. `make` answers an IOCTL or an unknown operation; `failed`
says that `do_ioctl_resp` returns an error. -/
inductive HandlerPc where
  | idle
  | fetch
  | scan (resp rp : Nat)
  | serve (t : Task) (rp : Nat)
  | stat (t : Task) (rp : Nat)
  | make (m : Making) (failed : Bool) (rp : Nat)
  | lower (r : Req) (resp rp : Nat)
  | finalCheck
deriving DecidableEq

/-- Where the thread that runs `do_write_resp` is: `xen_req_thread` of a server,
`xen_remote_thread` of a client. `transfer` is all it does on the device, with the
`memset` of the pages. -/
inductive ServicePc where
  | wait
  | account (t : Task)
  | lenReg (t : Task)
  | transfer (t : Task)
  | make (m : Making)
  | waitSer (t : Task)
  | send (t : Task)
  | dead (t : Task)
deriving DecidableEq

structure Seen where
  req : Req
  word : Nat
  val : UInt32
deriving DecidableEq

/-- `mapped` as in `Chrif`. `published`, `answers` and `seen` are history: the requests as
the front end wrote them, the responses on the ring with the request they answer, and what
was read. -/
structure State where
  published : List Words := []
  slots : Nat → Words
  resps : Nat → Words
  respNr : Nat := 0
  reqCons : Nat := 0
  rspProdPvt : Nat := 0
  mapped : Nat
  handler : HandlerPc := .idle
  queue : List Task := []
  service : ServicePc := .wait
  answers : List (Req × Words) := []
  seen : List Seen := []

/-- Before the first request; slots and allocated buffers hold anything, and an earlier
connection may have left pages mapped. -/
def start (mapped : Nat) (slots resps : Nat → Words) : State := { mapped, slots, resps }

/-! ## Steps -/

namespace State

def slot (s : State) (size : Nat) (r : Req) : Words := s.slots (r % size)

def setSlot (s : State) (size : Nat) (r : Req) (w : Words) : State :=
  { s with slots := Function.update s.slots (r % size) w }

def setResp (s : State) (b : Nat) (w : Words) : State :=
  { s with resps := Function.update s.resps b w }

def setRespWord (s : State) (b i : Nat) (v : UInt32) : State :=
  s.setResp b (Function.update (s.resps b) i v)

def lowerStatus (s : State) (size : Nat) (r : Req) : State :=
  s.setSlot size r
    (Function.update (s.slot size r) reqStatusWord (s.slot size r reqStatusWord - 1))

/-- `RING_GET_RESPONSE` at `rsp_prod_pvt`, the copy, and `rsp_prod_pvt++`. -/
def pushResponse (s : State) (size : Nat) (m : Making) : State :=
  { s.setSlot size s.rspProdPvt
      (copyResponse (s.slot size s.rspProdPvt) (s.resps m.resp)) with
    rspProdPvt := s.rspProdPvt + 1
    answers := s.answers ++ [(m.req, s.resps m.resp)] }

def makeStep (s : State) (size : Nat) (m : Making) : State :=
  let req := s.slot size m.req
  match m.pc with
  | .id => s.setRespWord m.resp idWord (req idWord)
  | .operation => s.setRespWord m.resp respOperationWord (req reqOperationWord)
  | .status => s.setRespWord m.resp respStatusWord (req reqStatusWord + 1)
  | .push => s.pushResponse size m

def unconsumed (s : State) (size : Nat) : Nat :=
  min (s.published.length - s.reqCons) (size - (s.reqCons - s.rspProdPvt))

end State

/-- With the result of `PDMA_IOC_STAT` and the statistics. -/
structure IrqEnv extends NetDom0.IrqEnv where
  err : Bool := false
  stat : Words := fun _ => 0

namespace State

def setStat (s : State) (b : Nat) (stat : Words) : State :=
  s.setResp b fun i =>
    if respStatWord ≤ i ∧ i < respStatWord + statWords then stat (i - respStatWord) else s.resps b i

/-- One step of the handler. A handler that dies in a call of the device is one that
is not scheduled again. -/
def irqStep (size : Nat) (s : State) (env : IrqEnv) : State :=
  match s.handler with
  | .idle => { s with handler := .fetch }
  | .fetch => { s with respNr := s.respNr + 1, handler := .scan s.respNr s.published.length }
  | .scan resp rp =>
    if s.reqCons = rp then { s with handler := .finalCheck }
    else if s.reqCons - s.rspProdPvt ≥ size then { s with handler := .finalCheck }
    else if env.stop then { s with handler := .idle }
    else if !env.pendingReq then { s with handler := .idle }
    else { s with reqCons := s.reqCons + 1, handler := .serve ⟨s.reqCons, resp⟩ rp }
  | .serve t rp =>
    match operationOf (s.slot size t.req reqOperationWord) with
    | .write => { s with queue := s.queue ++ [t], handler := .scan t.resp rp }
    | .ioctl => { s with handler := .stat t rp }
    | .map => { s with mapped := env.granted, handler := .scan t.resp rp }
    | .unknown => { s.lowerStatus size t.req with handler := .make t.making false rp }
  | .stat t rp => { s.setStat t.resp env.stat with handler := .make t.making env.err rp }
  | .make m failed rp =>
    { s.makeStep size m with
      handler := match m.pc.next with
        | some pc => .make { m with pc } failed rp
        | none => if failed then .lower m.req m.resp rp else .scan m.resp rp }
  | .lower r resp rp => { s.lowerStatus size r with handler := .scan resp rp }
  | .finalCheck => { s with handler := if s.unconsumed size > 0 then .fetch else .idle }

def see (s : State) (size : Nat) (r : Req) (i : Nat) : State :=
  { s with seen := s.seen ++ [⟨r, i, s.slot size r i⟩] }

/-- One step of the service thread on a WRITE of this front end. `completed` says whether
`comp_waitser` has been completed; a client gives no answer. -/
def serviceStep (size : Nat) (devOn : Bool) (s : State) (completed : Bool) : State :=
  match s.service with
  | .wait =>
    match s.queue with
    | [] => s
    | t :: rest => { s with queue := rest, service := .account t }
  | .account t => { s.see size t.req reqLengthWord with service := .lenReg t }
  | .lenReg t => { s.see size t.req reqLengthWord with service := .transfer t }
  | .transfer t =>
    if s.mapped < shareMemoryPn then { s with service := .dead t }
    else { s with service := if devOn then .make t.making else .waitSer t }
  | .make m =>
    let s' := match m.pc.word with
      | some i => s.see size m.req i
      | none => s
    { s'.makeStep size m with
      service := match m.pc.next with
        | some pc => .make { m with pc }
        | none => .wait }
  | .waitSer t => if completed then { s with service := .send t } else s
  | .send t => { s.see size t.req reqLengthWord with service := .wait }
  | .dead _ => s

def put (size : Nat) (s : State) (w : Words) : State :=
  { s.setSlot size s.published.length w with published := s.published ++ [w] }

end State

inductive Label where
  | put (w : Words)
  | irq (env : IrqEnv)
  | service (completed : Bool)

/-- The front end never has more requests outstanding than there are slots. -/
def step (size : Nat) (devOn : Bool) (s : State) : Label → Option State
  | .put w => if s.published.length - s.rspProdPvt < size then some (s.put size w) else none
  | .irq env => some (s.irqStep size env)
  | .service completed => some (s.serviceStep size devOn completed)

end PdmaXen.NetDom0.Ring
