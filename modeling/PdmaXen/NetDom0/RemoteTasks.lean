import PdmaXen.NetDom0.Server

/-!
# Remote tasks and their datagrams

All clients share one receive buffer and one peer address. A task finds its own
datagram there as long as none is received before its reply is sent. Here
`sendtocli_queue` has a reader, so that replies are sent at all.
-/

namespace PdmaXen.NetDom0.Server
set_option autoImplicit false
open Bytes Machine

def Task.number : Task → Option Nat
  | .native _ _ => none
  | .remote n => some n

def ServicePc.running : ServicePc → Option (Nat × RemotePc)
  | .remote n pc => some (n, pc)
  | _ => none

def Event.opOf (t : Task) : Event → Option DevOp
  | .op t' o => if t' = t then some o else none
  | .stat _ | .info => none

/-- Where the remote tasks are that are not yet answered. -/
structure Lanes where
  socket : SocketPc
  queued : List Nat
  running : Option (Nat × RemotePc)
  waiting : List Nat
  sender : SendPc
deriving DecidableEq

def Lanes.idle : Lanes := ⟨.recv, [], none, [], .wait⟩

def RemotePc.got : RemotePc → List (Option (List UInt8))
  | .read _ _ _ got | .push _ _ _ got => got
  | _ => []

def Executed.answers (e : Executed) : DevAnswers where
  regRead := e.reg
  block i := e.got.getD i none

namespace State

def lanes (s : State) : Lanes :=
  ⟨s.socket, s.nativeQueue.filterMap Task.number, s.service.running, s.sendtocliQueue, s.sender⟩

def opsOf (s : State) (t : Task) : List DevOp := s.trace.filterMap (Event.opOf t)

/-- The buffer right after receive `n`, and the address its datagram came from. -/
def received (s : State) (n : Nat) : Option ((Nat → UInt8) × Peer) :=
  s.arrivals[n]?.bind fun a => a.datagram.map fun d =>
    (xenSockRecvmsgFromClient a.before d.bytes, d.peer)

end State

/-- The buffer after the blocks `got` are read into it. -/
def readInto (info : PdmaInfo) (buf : Nat → UInt8) (got : List (Option (List UInt8))) :
    Nat → UInt8 :=
  (List.range got.length).foldl
    (fun buf i => place buf (UInt32.ofNat i * info.rdBlockSz).toNat ((got.getD i none).getD [])) buf

/-- `do_resp_remote_io_op` ran on the datagram of its task, sent by `peer`. -/
structure Computed (cfg : Config) (s : State) (e : Executed) (peer : Peer) (done : RemoteDone) :
    Prop where
  datagram : ∃ buf, s.received e.task = some (buf, peer) ∧
    doRespRemoteIoOp cfg.info e.answers e.addr buf = some done
  ops : s.opsOf (.remote e.task) = done.ops

/-- The result of `e` is still in the buffer, the address of its client beside it. -/
structure Held (cfg : Config) (s : State) (e : Executed) (done : RemoteDone) : Prop where
  mem : e ∈ s.executed
  computed : Computed cfg s e s.serverAddr done
  buffer : s.remoteBuf = done.remoteBuf
  length : s.remoteLength = done.length

/-- Every remote task is queued, executed and answered on its own datagram. -/
structure KeptApart (cfg : Config) (s : State) : Prop where
  queued : ∀ n, .remote n ∈ s.nativeQueue → s.received n = some (s.remoteBuf, s.serverAddr)
  running : ∀ n pc, s.service = .remote n pc → ∃ buf, s.received n = some (buf, s.serverAddr) ∧
    s.remoteBuf = readInto cfg.info buf pc.got
  executed : ∀ e ∈ s.executed, ∃ peer done, Computed cfg s e peer done
  waiting : ∀ n ∈ s.sendtocliQueue, ∃ e done, e.task = n ∧ Held cfg s e done
  sent : ∀ r ∈ s.sent, ∃ e done, e ∈ s.executed ∧ e.task = r.task ∧
    Computed cfg s e r.peer done ∧
    r.bytes = window done.remoteBuf 0 (getSendLen done.length).toNat

/-- A datagram is received only while every earlier remote task is answered, and no receive
fails. -/
def Alone (s : State) : Call → Prop
  | .thread (.conthrd .failed) => s.socket ≠ .recv
  | .thread (.conthrd (.datagram _)) => s.socket = .recv → s.lanes = .idle
  | _ => True

instance (s : State) : (c : Call) → Decidable (Alone s c)
  | .thread (.conthrd .failed) => inferInstanceAs (Decidable (s.socket ≠ .recv))
  | .thread (.conthrd (.datagram _)) =>
    inferInstanceAs (Decidable (s.socket = .recv → s.lanes = .idle))
  | .thread (.conthrd .nothing) | .thread (.put _ _) | .thread .probe | .thread (.irq _ _)
  | .thread (.reqthrd _) | .sendtocli => isTrue trivial

/-! ## One service -/

def messageLength (buf : Nat → UInt8) : UInt32 := UInt32.ofNat (leVal (window buf 0 offsetLength))

def writeOps (info : PdmaInfo) (buf : Nat → UInt8) (n : Nat) : List DevOp :=
  (List.range n).map fun i =>
    .write (window buf (offsetLength + (UInt32.ofNat i * info.wtBlockSz).toNat)
      info.wtBlockSz.toNat)

/-- What the device has been given when the service of the message in `buf` is at `pc`. -/
def opsAt (info : PdmaInfo) (buf : Nat → UInt8) : RemotePc → List DevOp
  | .load | .lenReg _ _ => []
  | .write addr length i => .regWrite addr ((length / 8) <<< 19) :: writeOps info buf i
  | .readReg addr length =>
    .regWrite addr ((length / 8) <<< 19) :: writeOps info buf (writeBlocks info length)
  | .read addr length _ got | .push addr length _ got =>
    .regWrite addr ((length / 8) <<< 19) :: writeOps info buf (writeBlocks info length)
      ++ .regRead addr :: readOps info got.length

def RemotePc.length : RemotePc → Option UInt32
  | .load => none
  | .lenReg _ length | .write _ length _ | .readReg _ length | .read _ length _ _
  | .push _ length _ _ => some length

def Within (info : PdmaInfo) : RemotePc → Prop
  | .load | .lenReg _ _ => True
  | .write _ length i => (info.wtBlockSz == 0) = false ∧ i ≤ writeBlocks info length
  | .readReg _ _ => (info.wtBlockSz == 0) = false
  | .read _ length reg got =>
    (info.wtBlockSz == 0) = false ∧
      got.length ≤ remoteReadBlocks info (reg.getD ((length / 8) <<< 19))
  | .push _ length reg got =>
    (info.wtBlockSz == 0) = false ∧
      got.length = remoteReadBlocks info (reg.getD ((length / 8) <<< 19))

/-- The service of task `n` is at `pc` and has worked on the datagram of `n` alone. -/
structure Serving (cfg : Config) (s : State) (n : Nat) (pc : RemotePc) (buf : Nat → UInt8) :
    Prop where
  received : s.received n = some (buf, s.serverAddr)
  new : ∀ e ∈ s.executed, e.task ≠ n
  ops : s.opsOf (.remote n) = opsAt cfg.info buf pc
  buffer : s.remoteBuf = readInto cfg.info buf pc.got
  length : ∀ length, pc.length = some length → length = messageLength buf ∧ s.remoteLength = length
  within : Within cfg.info pc

theorem readInto_snoc (info : PdmaInfo) (buf : Nat → UInt8) (got : List (Option (List UInt8)))
    (block : Option (List UInt8)) :
    readInto info buf (got ++ [block]) = place (readInto info buf got)
      (UInt32.ofNat got.length * info.rdBlockSz).toNat (block.getD []) := by
  rw [readInto, List.length_append, List.length_singleton, List.range_succ, List.foldl_append]
  have hfold : ∀ (l : List Nat) (b : Nat → UInt8), (∀ i ∈ l, i < got.length) →
      l.foldl (fun buf i => place buf (UInt32.ofNat i * info.rdBlockSz).toNat
        (((got ++ [block]).getD i none).getD [])) b
      = l.foldl (fun buf i => place buf (UInt32.ofNat i * info.rdBlockSz).toNat
        ((got.getD i none).getD [])) b := by
    intro l b hl
    apply List.foldl_ext
    intro b' i hi
    rw [List.getD_eq_getElem?_getD, List.getElem?_append_left (hl i hi),
      ← List.getD_eq_getElem?_getD]
  rw [hfold _ _ fun i hi => List.mem_range.mp hi]
  simp [readInto]

theorem readOps_succ (info : PdmaInfo) (n : Nat) : readOps info (n + 1)
    = readOps info n ++ [.read (UInt32.ofNat n * info.rdBlockSz).toNat info.rdBlockSz.toNat] := by
  simp [readOps, List.range_succ]

theorem writeOps_succ (info : PdmaInfo) (buf : Nat → UInt8) (n : Nat) : writeOps info buf (n + 1)
    = writeOps info buf n ++ [.write (window buf (offsetLength
        + (UInt32.ofNat n * info.wtBlockSz).toNat) info.wtBlockSz.toNat)] := by
  simp [writeOps, List.range_succ]

/-- A service that has come to its end is a run of `do_resp_remote_io_op`. -/
theorem doRespRemoteIoOp_eq {info : PdmaInfo} {e : Executed} {length : UInt32} (buf : Nat → UInt8)
    (hlen : length = messageLength buf) (hin : Within info (.push e.addr length e.reg e.got)) :
    doRespRemoteIoOp info e.answers e.addr buf = some {
      length
      ops := opsAt info buf (.push e.addr length e.reg e.got)
      remoteBuf := readInto info buf e.got } := by
  obtain ⟨hblk, hcount⟩ := hin
  subst hlen
  simp only [doRespRemoteIoOp, hblk, Bool.false_eq_true, if_false]
  change some (RemoteDone.mk (messageLength buf)
    (.regWrite e.addr ((messageLength buf / 8) <<< 19) ::
      ((List.range (writeBlocks info (messageLength buf))).map fun i =>
        window buf (offsetLength + (UInt32.ofNat i * info.wtBlockSz).toNat)
          info.wtBlockSz.toNat).map DevOp.write ++ .regRead e.addr ::
      readOps info (remoteReadBlocks info (e.reg.getD ((messageLength buf / 8) <<< 19))))
    ((List.range (remoteReadBlocks info (e.reg.getD ((messageLength buf / 8) <<< 19)))).foldl
      (fun buf i => place buf (UInt32.ofNat i * info.rdBlockSz).toNat
        ((e.got.getD i none).getD [])) buf)) = _
  rw [← hcount, List.map_map]
  rfl

section
variable {cfg : Config} {s s' : State} {n : Nat} {pc pc' : RemotePc} {buf : Nat → UInt8}

@[simp] theorem opsOf_snoc (trace : List Event) (t : Task) (e : Event) :
    (trace ++ [e]).filterMap (Event.opOf t)
      = trace.filterMap (Event.opOf t) ++ (e.opOf t).toList := by
  rw [List.filterMap_append]
  cases h : e.opOf t <;> simp [h]

theorem opsOf_operate (s : State) (t : Task) (o : DevOp) :
    (s.operate t o).opsOf t = s.opsOf t ++ [o] := by
  simp [State.opsOf, State.operate, Event.opOf]

theorem opsOf_operate_of_ne (s : State) {t t' : Task} (h : t ≠ t') (o : DevOp) :
    (s.operate t o).opsOf t' = s.opsOf t' := by
  simp [State.opsOf, State.operate, Event.opOf, h]

theorem Serving.operate (h : Serving cfg s n pc buf) {o : DevOp} (remoteBuf : Nat → UInt8)
    (hops : opsAt cfg.info buf pc' = opsAt cfg.info buf pc ++ [o])
    (hbuf : remoteBuf = readInto cfg.info buf pc'.got) (hlen : pc'.length = pc.length)
    (hin : Within cfg.info pc') :
    Serving cfg { s.operate (.remote n) o with service := .remote n pc', remoteBuf } n pc' buf where
  received := h.received
  new := h.new
  ops := by
    refine (opsOf_operate s (.remote n) o).trans ?_
    rw [h.ops, hops]
  buffer := hbuf
  length := by
    rw [hlen]
    exact h.length
  within := hin

theorem Serving.goto (h : Serving cfg s n pc buf)
    (hops : opsAt cfg.info buf pc' = opsAt cfg.info buf pc)
    (hgot : pc'.got = pc.got) (hlen : pc'.length = pc.length) (hin : Within cfg.info pc') :
    Serving cfg { s with service := .remote n pc' } n pc' buf where
  received := h.received
  new := h.new
  ops := h.ops.trans hops.symm
  buffer := by
    rw [hgot]
    exact h.buffer
  length := by
    rw [hlen]
    exact h.length
  within := hin

/-- What the service of task `n` leaves alone. -/
structure Beside (n : Nat) (s s' : State) : Prop where
  socket : s'.socket = s.socket := by rfl
  nativeQueue : s'.nativeQueue = s.nativeQueue := by rfl
  sender : s'.sender = s.sender := by rfl
  serverAddr : s'.serverAddr = s.serverAddr := by rfl
  arrivals : s'.arrivals = s.arrivals := by rfl
  sent : s'.sent = s.sent := by rfl
  ops : ∀ m, n ≠ m → s'.opsOf (.remote m) = s.opsOf (.remote m)

inductive Outcome (cfg : Config) (s s' : State) (n : Nat) (buf : Nat → UInt8) : Prop where
  | goes (pc : RemotePc) (service : s'.service = .remote n pc) (executed : s'.executed = s.executed)
      (queue : s'.sendtocliQueue = s.sendtocliQueue) (serving : Serving cfg s' n pc buf)
  | dies (service : s'.service = .dead (.remote n)) (executed : s'.executed = s.executed)
      (queue : s'.sendtocliQueue = s.sendtocliQueue)
  | ends (e : Executed) (done : RemoteDone) (task : e.task = n) (service : s'.service = .wait)
      (executed : s'.executed = s.executed ++ [e])
      (queue : s'.sendtocliQueue = s.sendtocliQueue ++ [n]) (held : Held cfg s' e done)

theorem remoteStep_beside (cfg : Config) (s : State) (env : ServiceEnv) (n : Nat) (pc : RemotePc) :
    Beside n s (s.remoteStep cfg env n pc) := by
  have hne : ∀ m, n ≠ m → Task.remote n ≠ .remote m := fun m hm h => hm (Task.remote.inj h)
  have hop : ∀ o m, n ≠ m → (s.operate (.remote n) o).opsOf (.remote m) = s.opsOf (.remote m) :=
    fun o m hm => opsOf_operate_of_ne s (hne m hm) o
  cases pc <;> simp only [State.remoteStep] <;> (repeat' split) <;>
    first
    | exact { ops := fun _ _ => rfl }
    | exact { ops := hop _ }

theorem Serving.step (h : Serving cfg s n pc buf) (env : ServiceEnv) :
    Outcome cfg s (s.remoteStep cfg env n pc) n buf := by
  cases pc with
  | load =>
    have hbuf : s.remoteBuf = buf := h.buffer
    refine .goes _ rfl rfl rfl ⟨h.received, h.new, h.ops, h.buffer, ?_, trivial⟩
    intro length hlen
    cases hlen
    rw [← hbuf]
    exact ⟨rfl, rfl⟩
  | lenReg addr length =>
    simp only [State.remoteStep]
    split
    · exact .dies rfl rfl rfl
    · split
      · exact .dies rfl rfl rfl
      · next hblk =>
        exact .goes _ rfl rfl rfl (h.operate s.remoteBuf rfl h.buffer rfl
          ⟨by simpa using hblk, Nat.zero_le _⟩)
  | write addr length i =>
    obtain ⟨hblk, hle⟩ := h.within
    simp only [State.remoteStep]
    split
    · next hi =>
      split
      · exact .dies rfl rfl rfl
      · have hbuf : s.remoteBuf = buf := h.buffer
        refine .goes _ rfl rfl rfl (h.operate s.remoteBuf ?_ h.buffer rfl ⟨hblk, hi⟩)
        rw [opsAt, writeOps_succ, hbuf]
        rfl
    · next hi =>
      have hi : i = writeBlocks cfg.info length := by omega
      subst hi
      exact .goes _ rfl rfl rfl (h.goto rfl rfl rfl hblk)
  | readReg addr length =>
    simp only [State.remoteStep]
    split
    · exact .dies rfl rfl rfl
    · exact .goes _ rfl rfl rfl (h.operate s.remoteBuf rfl h.buffer rfl ⟨h.within, Nat.zero_le _⟩)
  | read addr length reg got =>
    obtain ⟨hblk, hle⟩ := h.within
    simp only [State.remoteStep]
    split
    · next hlt =>
      split
      · exact .dies rfl rfl rfl
      · refine .goes _ rfl rfl rfl (h.operate _ ?_ ?_ rfl ⟨hblk, ?_⟩)
        · simp [opsAt, readOps_succ]
        · rw [RemotePc.got, readInto_snoc, h.buffer]
          rfl
        · rw [List.length_append, List.length_singleton]
          omega
    · next hlt => exact .goes _ rfl rfl rfl (h.goto rfl rfl rfl ⟨hblk, by omega⟩)
  | push addr length reg got =>
    obtain ⟨hlen, hlength⟩ := h.length length rfl
    exact .ends ⟨n, addr, reg, got⟩ _ rfl rfl rfl rfl {
      mem := by simp [State.remoteStep, State.finish]
      computed := {
        datagram := ⟨buf, h.received, doRespRemoteIoOp_eq buf hlen h.within⟩
        ops := h.ops }
      buffer := h.buffer
      length := hlength }

/-! ## The life of a remote task -/

structure Fresh (s : State) (n : Nat) : Prop where
  received : s.received n = some (s.remoteBuf, s.serverAddr)
  new : ∀ e ∈ s.executed, e.task ≠ n
  ops : s.opsOf (.remote n) = []

/-- At most one remote task is not yet answered. -/
inductive Phase (cfg : Config) (s : State) : Prop where
  | idle (lanes : s.lanes = .idle)
  | received (n : Nat) (lanes : s.lanes = { Lanes.idle with socket := .push n }) (fresh : Fresh s n)
  | queued (n : Nat) (lanes : s.lanes = { Lanes.idle with queued := [n] }) (fresh : Fresh s n)
  | running (n : Nat) (pc : RemotePc) (buf : Nat → UInt8)
      (lanes : s.lanes = { Lanes.idle with running := some (n, pc) })
      (serving : Serving cfg s n pc buf)
  | waiting (e : Executed) (done : RemoteDone)
      (lanes : s.lanes = { Lanes.idle with waiting := [e.task] }) (held : Held cfg s e done)
  | sending (e : Executed) (done : RemoteDone)
      (lanes : s.lanes = { Lanes.idle with sender := .send e.task }) (held : Held cfg s e done)

structure History (cfg : Config) (s : State) : Prop where
  executed : ∀ e ∈ s.executed, ∃ peer done, Computed cfg s e peer done
  sent : ∀ r ∈ s.sent, ∃ e done, e ∈ s.executed ∧ e.task = r.task ∧
    Computed cfg s e r.peer done ∧ r.bytes = window done.remoteBuf 0 (getSendLen done.length).toNat
  new : ∀ n, s.arrivals.length ≤ n → s.opsOf (.remote n) = []

structure Apart (cfg : Config) (s : State) : Prop where
  phase : Phase cfg s
  history : History cfg s

structure Keeps (s s' : State) (n : Nat) : Prop where
  received : s'.received n = s.received n
  ops : s'.opsOf (.remote n) = s.opsOf (.remote n)

theorem Computed.keep {e : Executed} {peer : Peer} {done : RemoteDone}
    (h : Computed cfg s e peer done) (hk : Keeps s s' e.task) : Computed cfg s' e peer done where
  datagram := by
    rw [hk.received]
    exact h.datagram
  ops := hk.ops.trans h.ops

theorem received_lt {x : (Nat → UInt8) × Peer} (h : s.received n = some x) :
    n < s.arrivals.length := by
  obtain ⟨a, ha, _⟩ := Option.bind_eq_some_iff.mp h
  exact (List.getElem?_eq_some_iff.mp ha).1

theorem Computed.lt {e : Executed} {peer : Peer} {done : RemoteDone}
    (h : Computed cfg s e peer done) : e.task < s.arrivals.length := by
  obtain ⟨buf, hbuf, _⟩ := h.datagram
  exact received_lt hbuf

theorem History.keep (h : History cfg s) (hexec : s'.executed = s.executed)
    (hsent : s'.sent = s.sent) (hk : ∀ e ∈ s.executed, Keeps s s' e.task)
    (hnew : ∀ n, s'.arrivals.length ≤ n → s'.opsOf (.remote n) = []) : History cfg s' where
  executed := by
    rw [hexec]
    intro e he
    obtain ⟨peer, done, hdone⟩ := h.executed e he
    exact ⟨peer, done, hdone.keep (hk e he)⟩
  sent := by
    rw [hexec, hsent]
    intro r hr
    obtain ⟨e, done, he, htask, hdone, hbytes⟩ := h.sent r hr
    exact ⟨e, done, he, htask, hdone.keep (hk e he), hbytes⟩
  new := hnew

structure Quiet (s s' : State) : Prop where
  lanes : s'.lanes = s.lanes
  remoteBuf : s'.remoteBuf = s.remoteBuf := by rfl
  remoteLength : s'.remoteLength = s.remoteLength := by rfl
  serverAddr : s'.serverAddr = s.serverAddr := by rfl
  arrivals : s'.arrivals = s.arrivals := by rfl
  executed : s'.executed = s.executed := by rfl
  sent : s'.sent = s.sent := by rfl
  ops : ∀ n, s'.opsOf (.remote n) = s.opsOf (.remote n)

theorem Quiet.keeps (h : Quiet s s') (n : Nat) : Keeps s s' n :=
  ⟨by rw [State.received, h.arrivals]; rfl, h.ops n⟩

theorem Quiet.fresh (h : Quiet s s') (hf : Fresh s n) : Fresh s' n :=
  ⟨by rw [(h.keeps n).received, h.remoteBuf, h.serverAddr, hf.received],
    by rw [h.executed]; exact hf.new, (h.ops n).trans hf.ops⟩

theorem Quiet.held (h : Quiet s s') {e : Executed} {done : RemoteDone} (hh : Held cfg s e done) :
    Held cfg s' e done where
  mem := h.executed ▸ hh.mem
  computed := by
    rw [h.serverAddr]
    exact hh.computed.keep (h.keeps e.task)
  buffer := h.remoteBuf.trans hh.buffer
  length := h.remoteLength.trans hh.length

theorem Quiet.serving (h : Quiet s s') (hs : Serving cfg s n pc buf) : Serving cfg s' n pc buf where
  received := by rw [(h.keeps n).received, h.serverAddr, hs.received]
  new := by
    rw [h.executed]
    exact hs.new
  ops := (h.ops n).trans hs.ops
  buffer := h.remoteBuf.trans hs.buffer
  length := by
    rw [h.remoteLength]
    exact hs.length
  within := hs.within

theorem Quiet.apart (h : Quiet s s') (ha : Apart cfg s) : Apart cfg s' where
  phase := by
    cases ha.phase with
    | idle lanes => exact .idle (h.lanes.trans lanes)
    | received n lanes fresh => exact .received n (h.lanes.trans lanes) (h.fresh fresh)
    | queued n lanes fresh => exact .queued n (h.lanes.trans lanes) (h.fresh fresh)
    | running n pc buf lanes serving =>
      exact .running n pc buf (h.lanes.trans lanes) (h.serving serving)
    | waiting e done lanes held => exact .waiting e done (h.lanes.trans lanes) (h.held held)
    | sending e done lanes held => exact .sending e done (h.lanes.trans lanes) (h.held held)
  history := ha.history.keep h.executed h.sent (fun e _ => h.keeps e.task) fun n hn => by
    rw [h.ops]
    exact ha.history.new n (h.arrivals ▸ hn)

theorem Phase.of_socket (h : Phase cfg s) (hpc : s.socket = .push n) :
    s.lanes = { Lanes.idle with socket := .push n } ∧ Fresh s n := by
  cases h with
  | received m lanes fresh =>
    obtain rfl : n = m := by simpa [State.lanes, hpc] using congrArg Lanes.socket lanes
    exact ⟨lanes, fresh⟩
  | _ => simp_all [State.lanes, Lanes.idle]

theorem Phase.of_queued (h : Phase cfg s) (hmem : n ∈ s.lanes.queued) :
    s.lanes = { Lanes.idle with queued := [n] } ∧ Fresh s n := by
  cases h with
  | queued m lanes fresh =>
    rw [lanes] at hmem
    obtain rfl := List.mem_singleton.mp hmem
    exact ⟨lanes, fresh⟩
  | _ => simp_all [Lanes.idle]

theorem Phase.of_running (h : Phase cfg s) (hpc : s.service = .remote n pc) :
    s.lanes = { Lanes.idle with running := some (n, pc) } ∧ ∃ buf, Serving cfg s n pc buf := by
  have hrun : s.lanes.running = some (n, pc) := by rw [State.lanes, hpc]; rfl
  cases h with
  | running m pc' buf lanes serving =>
    rw [lanes] at hrun
    cases hrun
    exact ⟨lanes, buf, serving⟩
  | _ => simp_all [Lanes.idle]

theorem Phase.of_waiting (h : Phase cfg s) (hmem : n ∈ s.sendtocliQueue) :
    s.lanes = { Lanes.idle with waiting := [n] } ∧ ∃ e done, e.task = n ∧ Held cfg s e done := by
  have hwait : n ∈ s.lanes.waiting := hmem
  cases h with
  | waiting e done lanes held =>
    rw [lanes] at hwait
    obtain rfl := List.mem_singleton.mp hwait
    exact ⟨lanes, e, done, rfl, held⟩
  | _ => simp_all [Lanes.idle]

theorem Phase.of_sender (h : Phase cfg s) (hpc : s.sender = .send n) :
    s.lanes = { Lanes.idle with sender := .send n } ∧ ∃ e done, e.task = n ∧ Held cfg s e done := by
  have hsend : s.lanes.sender = .send n := hpc
  cases h with
  | sending e done lanes held =>
    rw [lanes] at hsend
    cases hsend
    exact ⟨lanes, e, done, rfl, held⟩
  | _ => simp_all [Lanes.idle]

theorem Apart.keptApart (h : Apart cfg s) : KeptApart cfg s where
  queued n hn := (h.phase.of_queued (List.mem_filterMap.mpr ⟨_, hn, rfl⟩)).2.received
  running n pc hpc := by
    obtain ⟨-, buf, hserving⟩ := h.phase.of_running hpc
    exact ⟨buf, hserving.received, hserving.buffer⟩
  executed := h.history.executed
  waiting n hn := (h.phase.of_waiting hn).2
  sent := h.history.sent

/-! ## Steps -/

theorem nativeStep_quiet (cfg : Config) (env : ServiceEnv) {d : Dom} {r : Req} (pc : NativePc)
    (hpc : s.service.running = none) : Quiet s (s.nativeStep cfg env d r pc) := by
  have hlanes : ∀ sv, ServicePc.running sv = none →
      ({ s with service := sv } : State).lanes = s.lanes :=
    fun sv hsv => by simp [State.lanes, hpc, hsv]
  have hop : ∀ o n, (s.operate (.native d r) o).opsOf (.remote n) = s.opsOf (.remote n) :=
    fun o n => opsOf_operate_of_ne s Task.noConfusion o
  cases pc <;> simp only [State.nativeStep] <;> (repeat' split) <;>
    first
    | exact { lanes := hlanes _ rfl, ops := fun _ => rfl }
    | exact { lanes := hlanes _ rfl, ops := hop _ }

theorem irqStep_quiet (cfg : Config) (s : State) (d : Dom) (env : IrqEnv) :
    Quiet s (s.irqStep cfg d env) := by
  simp only [State.irqStep]
  split
  · split
    · refine { lanes := ?_, ops := fun _ => rfl }
      simp [State.lanes, State.push, Task.number]
    · split
      · refine { lanes := rfl, ops := fun n => ?_ }
        simp [State.opsOf, Event.opOf]
      · exact { lanes := rfl, ops := fun _ => rfl }
    · exact { lanes := rfl, ops := fun _ => rfl }
    · exact { lanes := rfl, ops := fun _ => rfl }
  · exact { lanes := rfl, ops := fun _ => rfl }

theorem Apart.serve (ha : Apart cfg s) (env : ServiceEnv) (hpc : s.service = .remote n pc) :
    Apart cfg (s.remoteStep cfg env n pc) := by
  obtain ⟨hlanes, buf, hserving⟩ := ha.phase.of_running hpc
  have hbeside := remoteStep_beside cfg s env n pc
  have hoff : ∀ e ∈ s.executed, Keeps s (s.remoteStep cfg env n pc) e.task := fun e he =>
    ⟨by rw [State.received, hbeside.arrivals]; rfl, hbeside.ops _ (hserving.new e he).symm⟩
  have hnew : ∀ m, (s.remoteStep cfg env n pc).arrivals.length ≤ m →
      (s.remoteStep cfg env n pc).opsOf (.remote m) = [] := by
    intro m hm
    rw [hbeside.arrivals] at hm
    have hlt := received_lt hserving.received
    rw [hbeside.ops m (by omega), ha.history.new m hm]
  simp only [State.lanes, Lanes.idle, Lanes.mk.injEq] at hlanes
  obtain ⟨hsocket, hqueued, -, hwaiting, hsender⟩ := hlanes
  cases hserving.step env with
  | goes pc' service executed queue serving =>
    refine ⟨.running n pc' buf ?_ serving, ha.history.keep executed hbeside.sent hoff hnew⟩
    simp [State.lanes, Lanes.idle, service, queue, hbeside.socket, hbeside.nativeQueue,
      hbeside.sender, hsocket, hqueued, hwaiting, hsender, ServicePc.running]
  | dies service executed queue =>
    refine ⟨.idle ?_, ha.history.keep executed hbeside.sent hoff hnew⟩
    simp [State.lanes, Lanes.idle, service, queue, hbeside.socket, hbeside.nativeQueue,
      hbeside.sender, hsocket, hqueued, hwaiting, hsender, ServicePc.running]
  | ends e done task service executed queue held =>
    refine ⟨.waiting e done ?_ held, ?_, ?_, hnew⟩
    · simp [State.lanes, Lanes.idle, service, queue, hbeside.socket, hbeside.nativeQueue,
        hbeside.sender, hsocket, hqueued, hwaiting, hsender, ServicePc.running, task]
    · rw [executed]
      intro e' he'
      rcases List.mem_append.mp he' with he' | he'
      · obtain ⟨peer, done', hdone⟩ := ha.history.executed e' he'
        exact ⟨peer, done', hdone.keep (hoff e' he')⟩
      · obtain rfl := List.mem_singleton.mp he'
        exact ⟨_, done, held.computed⟩
    · rw [executed, hbeside.sent]
      intro r hr
      obtain ⟨e', done', he', htask, hdone, hbytes⟩ := ha.history.sent r hr
      exact ⟨e', done', List.mem_append_left _ he', htask, hdone.keep (hoff e' he'), hbytes⟩

theorem Apart.take (ha : Apart cfg s) (hpc : s.service = .wait) {rest : List Task}
    (hq : s.nativeQueue = .remote n :: rest) {begun : List Task} :
    Apart cfg { s with nativeQueue := rest, begun, service := .remote n .load } := by
  obtain ⟨hlanes, hfresh⟩ := ha.phase.of_queued (n := n) (by simp [State.lanes, hq, Task.number])
  refine ⟨.running n .load s.remoteBuf ?_ ?_, ha.history.keep rfl rfl (fun e _ => ⟨rfl, rfl⟩)
    ha.history.new⟩
  · simp [State.lanes, Lanes.idle, hq, hpc, Task.number, ServicePc.running] at hlanes ⊢
    exact hlanes
  · exact {
      received := hfresh.received
      new := hfresh.new
      ops := hfresh.ops
      buffer := rfl
      length := fun _ h => nomatch h
      within := trivial }

theorem Apart.reqStep (ha : Apart cfg s) (env : ServiceEnv) : Apart cfg (s.reqStep cfg env) := by
  unfold State.reqStep
  cases hpc : s.service with
  | wait =>
    cases hq : s.nativeQueue with
    | nil => exact ha
    | cons t rest =>
      cases t with
      | native d r =>
        have hquiet : Quiet s { s with
            nativeQueue := rest, begun := s.begun ++ [.native d r],
            service := .native d r .resetReg } :=
          { lanes := by
              simp [State.lanes, hq, hpc, Task.number, ServicePc.running, List.filterMap_cons]
            ops := fun _ => rfl }
        exact hquiet.apart ha
      | remote n => exact ha.take hpc hq
  | native d r pc => exact (nativeStep_quiet cfg env pc (by rw [hpc]; rfl)).apart ha
  | remote n pc => exact ha.serve env hpc
  | dead t => exact ha

theorem Apart.receive (ha : Apart cfg s) (hlanes : s.lanes = .idle) (d : Datagram) :
    Apart cfg { s with
      remoteBuf := xenSockRecvmsgFromClient s.remoteBuf d.bytes
      serverAddr := d.peer
      arrivals := s.arrivals ++ [⟨s.remoteBuf, some d⟩]
      socket := .push s.arrivals.length } := by
  have hlt : ∀ e ∈ s.executed, e.task < s.arrivals.length := by
    intro e he
    obtain ⟨peer, done, hdone⟩ := ha.history.executed e he
    exact hdone.lt
  refine ⟨.received s.arrivals.length ?_ ⟨?_, ?_, ?_⟩, ha.history.keep rfl rfl ?_ ?_⟩
  · simp [State.lanes, Lanes.idle] at hlanes ⊢
    exact hlanes.2
  · simp [State.received]
  · exact fun e he => Nat.ne_of_lt (hlt e he)
  · exact ha.history.new _ (Nat.le_refl _)
  · exact fun e he => ⟨by simp [State.received, List.getElem?_append_left (hlt e he)], rfl⟩
  · intro n hn
    rw [List.length_append] at hn
    exact ha.history.new n (by omega)

theorem Apart.push (ha : Apart cfg s) (hpc : s.socket = .push n) :
    Apart cfg { s.push (.remote n) with socket := .recv } := by
  obtain ⟨hlanes, hfresh⟩ := ha.phase.of_socket hpc
  refine ⟨.queued n ?_ ⟨hfresh.received, hfresh.new, hfresh.ops⟩,
    ha.history.keep rfl rfl (fun e _ => ⟨rfl, rfl⟩) ha.history.new⟩
  simp [State.lanes, Lanes.idle, State.push, Task.number] at hlanes ⊢
  exact hlanes.2

theorem Apart.sendStep (ha : Apart cfg s) : Apart cfg s.sendStep := by
  unfold State.sendStep
  cases hpc : s.sender with
  | wait =>
    cases hq : s.sendtocliQueue with
    | nil => exact ha
    | cons n rest =>
      obtain ⟨hlanes, e, done, rfl, hheld⟩ := ha.phase.of_waiting (n := n) (by simp [hq])
      refine ⟨.sending e done ?_ ⟨hheld.mem, hheld.computed.keep ⟨rfl, rfl⟩,
        hheld.buffer, hheld.length⟩, ha.history.keep rfl rfl (fun e _ => ⟨rfl, rfl⟩) ha.history.new⟩
      simp [State.lanes, Lanes.idle, hq] at hlanes ⊢
      exact ⟨hlanes.1, hlanes.2.1, hlanes.2.2.1, hlanes.2.2.2.1⟩
  | send n =>
    obtain ⟨hlanes, e, done, htask, hheld⟩ := ha.phase.of_sender hpc
    refine ⟨.idle ?_, ?_, ?_, ha.history.new⟩
    · simp [State.lanes, Lanes.idle] at hlanes ⊢
      exact ⟨hlanes.1, hlanes.2.1, hlanes.2.2.1, hlanes.2.2.2.1⟩
    · intro e' he'
      obtain ⟨peer, done', hdone⟩ := ha.history.executed e' he'
      exact ⟨peer, done', hdone.keep ⟨rfl, rfl⟩⟩
    · intro r hr
      rcases List.mem_append.mp hr with hr | hr
      · obtain ⟨e', done', he', htask', hdone, hbytes⟩ := ha.history.sent r hr
        exact ⟨e', done', he', htask', hdone.keep ⟨rfl, rfl⟩, hbytes⟩
      · obtain rfl := List.mem_singleton.mp hr
        exact ⟨e, done, hheld.mem, htask, hheld.computed.keep ⟨rfl, rfl⟩,
          by rw [hheld.buffer, hheld.length]⟩

theorem Apart.step {c : Call} (ha : Apart cfg s) (hc : Alone s c)
    (hstep : stepWithSender cfg s c = some s') : Apart cfg s' := by
  cases c with
  | sendtocli =>
    cases hstep
    exact ha.sendStep
  | thread l =>
    cases l with
    | put d op =>
      cases hstep
      have hquiet : Quiet s (s.put d op) := { lanes := rfl, ops := fun _ => rfl }
      exact hquiet.apart ha
    | probe =>
      cases hstep
      have hquiet : Quiet s { s with trace := s.trace ++ [.info] } :=
        { lanes := rfl, ops := fun n => by simp [State.opsOf, Event.opOf] }
      exact hquiet.apart ha
    | irq d env =>
      cases hstep
      exact (irqStep_quiet cfg s d env).apart ha
    | reqthrd env =>
      cases hstep
      exact ha.reqStep env
    | conthrd received =>
      cases hstep
      unfold State.conStep
      cases hpc : s.socket with
      | recv =>
        cases received with
        | nothing => exact ha
        | failed => exact absurd hpc hc
        | datagram d => exact ha.receive (hc hpc) d
      | push n => exact ha.push hpc

end

/-- Remote tasks are kept apart in every run that receives a datagram only when all
earlier ones are answered. -/
theorem remote_tasks_apart (cfg : Config) (mapped : Dom → Nat) (remoteBuf : Nat → UInt8)
    (cs : List Call)
    (hcs : Along (stepWithSender cfg) Alone (start mapped remoteBuf) cs) :
    ∃ t, exec (stepWithSender cfg) (start mapped remoteBuf) cs = some t ∧ KeptApart cfg t := by
  obtain ⟨t, hrun⟩ := exec_total (stepWithSender_total cfg) (start mapped remoteBuf) cs
  have hstart : Apart cfg (start mapped remoteBuf) := by
    refine ⟨.idle rfl, ?_, ?_, fun _ _ => rfl⟩
    · intro e he
      cases he
    · intro r hr
      cases hr
  exact ⟨t, hrun, (invariant_along (fun h hc hstep => h.step hc hstep) hstart hcs hrun).keptApart⟩

def serveDatagram (peer : Peer) (word : Nat) : List Call :=
  .thread (.conthrd (.datagram ⟨leBytes 4 8 ++ leBytes 8 word, peer⟩)) ::
    .thread (.conthrd .nothing) ::
    List.replicate 9 (.thread (.reqthrd { reg := some 8, block := some (leBytes 8 word) }))

theorem remote_tasks_apart_two :
    ∃ t, exec (stepWithSender (serverConfig ⟨4096, 4096⟩ 32)) (start (fun _ => 0) fun _ => 0)
      (serveDatagram 1 5 ++ [.sendtocli, .sendtocli] ++ serveDatagram 2 6) = some t ∧
      KeptApart (serverConfig ⟨4096, 4096⟩ 32) t :=
  remote_tasks_apart _ _ _ _ (by decide +kernel)

/-- A second client's datagram comes in while the task of the first is queued. -/
def datagramBehind : List Call :=
  [.thread (.conthrd (.datagram ⟨leBytes 4 8 ++ leBytes 8 5, 1⟩)), .thread (.conthrd .nothing),
    .thread (.conthrd (.datagram ⟨leBytes 4 8 ++ leBytes 8 6, 2⟩))]

theorem queued_datagram_overwritten :
    ∃ t, exec (stepWithSender (serverConfig ⟨4096, 4096⟩ 32)) (start (fun _ => 0) fun _ => 0)
      datagramBehind = some t ∧ ¬KeptApart (serverConfig ⟨4096, 4096⟩ 32) t := by
  refine exists_end_view _
    (fun t => (t.nativeQueue, (t.received 0).map fun x => (window x.1 4 8, x.2),
      window t.remoteBuf 4 8, t.serverAddr))
    (v := ([.remote 0], some (leBytes 8 5, 1), leBytes 8 6, 2)) (by decide +kernel)
    fun t _ hv hkept => ?_
  simp only [Prod.mk.injEq] at hv
  obtain ⟨hqueue, hreceived, hbuf, -⟩ := hv
  have hown := hkept.queued 0 (by simp [hqueue])
  rw [hown, Option.map_some, hbuf] at hreceived
  exact absurd (Option.some.inj hreceived) (by simp [leBytes])

end PdmaXen.NetDom0.Server
