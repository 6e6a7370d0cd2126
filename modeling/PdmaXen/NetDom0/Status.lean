import PdmaXen.NetDom0.Ring
import PdmaXen.NetDom0.Server

/-!
# The status of a response

One request from the ring to its response, with every call of the device, of the
hypervisor and of a socket free to fail. `status` is the front end's word in the
slot; a failure is meant to be told by a `status` that was not advanced.
-/

namespace PdmaXen.NetDom0.Status
set_option autoImplicit false

structure Request where
  id : UInt32
  operation : UInt32
  status : UInt32
  length : UInt32

structure Response where
  id : UInt32
  operation : UInt32
  status : UInt32
  stat : Option Ring.Words := none

/-- What the calls made for a request return. `val` is `ctrl.val` after the length
register was read, `comp` says whether `comp_waitser` is completed, `granted` how many
pages of a MAP are mapped before one is refused. -/
structure Answers where
  resetReg : Int := 0
  lenReg : Int := 0
  write : Nat → Int := fun _ => 0
  readReg : Int := 0
  val : UInt32 := 0
  read : Nat → Int := fun _ => 0
  resetAfter : Int := 0
  comp : Bool := true
  sendmsg : Int := 0
  recvmsg : Int := 0
  ioctlStat : Int := 0
  pdmaStat : Ring.Words := fun _ => 0
  granted : Nat := shareMemoryPn

/-- What became of a request: the calls made for it, each with whether it succeeded,
whether the code came to its end, the response, and `req->status` and the pages mapped
from `map_pages[0]` on afterwards. -/
structure Done where
  calls : List Bool := []
  finished : Bool := true
  response : Option Response := none
  status : UInt32
  mapped : Nat

def xenMakeResponse (req : Request) : Response :=
  { id := req.id, operation := req.operation, status := req.status + 1 }

/-- The calls of `do_read_data`, `none` when it faults. -/
def doReadData (cfg : Config) (a : Answers) : Option (List Bool) :=
  if !cfg.passesRead then none
  else
    let rdCount := (readCount a.val.toInt32 cfg.info.rdBlockSz.toInt32).toNatClampNeg
    some (decide (a.readReg = 0) :: (List.range rdCount).map (fun i => decide (0 ≤ a.read i))
      ++ [decide (a.resetAfter = 0)])

/-- The calls of `do_write_resp` before it looks at the role; the `memset` behind them
needs all pages mapped. -/
def transfer (cfg : Config) (mapped : Nat) (req : Request) (a : Answers) : Option (List Bool) :=
  if !cfg.usable || cfg.info.wtBlockSz == 0 || mapped < shareMemoryPn then none
  else
    let wtCount := Server.writeBlocks cfg.info req.length
    some (decide (a.resetReg = 0) :: decide (a.lenReg = 0) ::
      (List.range wtCount).map fun i => decide (0 ≤ a.write i))

def doWriteResp (cfg : Config) (mapped : Nat) (req : Request) (a : Answers) : Done :=
  match transfer cfg mapped req a with
  | none => { finished := false, status := req.status, mapped }
  | some calls =>
    if cfg.devOn then
      match doReadData cfg a with
      | none => { calls, finished := false, status := req.status, mapped }
      | some reads =>
        { calls := calls ++ reads
          response := some (xenMakeResponse req)
          status := req.status
          mapped }
    else { calls, finished := a.comp, status := req.status, mapped }

def dispatchRemoteQueue (cfg : Config) (mapped : Nat) (req : Request) (a : Answers) : Done :=
  let done := doWriteResp cfg mapped req a
  if done.finished then
    { done with calls := done.calls ++ [decide (0 ≤ a.sendmsg), decide (0 ≤ a.recvmsg)] }
  else done

/-- `do_ioctl_resp`, and `req->status -= 1` of its caller. -/
def doIoctlResp (cfg : Config) (mapped : Nat) (req : Request) (a : Answers) : Done :=
  if !cfg.usable then { finished := false, status := req.status, mapped }
  else
    { calls := [decide (a.ioctlStat = 0)]
      response := some { xenMakeResponse req with stat := some a.pdmaStat }
      status := if a.ioctlStat ≠ 0 then req.status - 1 else req.status
      mapped }

/-- A request from the branch of `__do_char_io_op` it takes to its end. -/
def serve (cfg : Config) (mapped : Nat) (req : Request) (a : Answers) : Done :=
  match Ring.operationOf req.operation with
  | .write =>
    if cfg.devOn then doWriteResp cfg mapped req a else dispatchRemoteQueue cfg mapped req a
  | .ioctl => doIoctlResp cfg mapped req a
  | .map =>
    { calls := [decide (shareMemoryPn ≤ a.granted)], status := req.status, mapped := a.granted }
  | .unknown =>
    let req := { req with status := req.status - 1 }
    { response := some (xenMakeResponse req), status := req.status, mapped }

/-! ## The same in the threads -/

/-- The handler puts a response on the ring for exactly the requests answered here, and
leaves the pages mapped that are mapped here. -/
theorem responses_irqStep (cfg : Config) (c : Chrif) (req : Request) (a : Answers) {r : Req}
    {rp : Nat} (env : IrqEnv) (hpc : c.irq = .serve r rp) (hgranted : env.granted = a.granted)
    (hop : c.operation r = Ring.operationOf req.operation) (hne : c.operation r ≠ .write) :
    (c.irqStep cfg env).responses
      = c.responses ++ (if (serve cfg c.mapped req a).response.isSome then [r] else []) ∧
    (c.irqStep cfg env).mapped = (serve cfg c.mapped req a).mapped := by
  unfold serve Chrif.irqStep
  rw [← hop, hpc]
  cases hkind : c.operation r with
  | write => exact absurd hkind hne
  | ioctl =>
    simp only [hkind, doIoctlResp]
    by_cases husable : cfg.usable = true
    · simp [husable, Chrif.makeResponse, Chrif.setIrq]
    · simp [husable, Chrif.drop, Chrif.setIrq]
  | map => simp [hkind, Chrif.drop, Chrif.xenChrbkMap, Chrif.setIrq, hgranted]
  | unknown => simp [hkind, Chrif.makeResponse, Chrif.setIrq]

/-- The service thread dies in a stage of `do_write_resp` exactly when the calls fault. -/
theorem transfer_isSome (cfg : Config) (c : Chrif) (req : Request) (a : Answers) :
    (transfer cfg c.mapped req a).isSome ↔ ∀ stage, c.passes cfg stage = true := by
  unfold transfer
  constructor
  · intro h stage
    split at h
    case isTrue => cases h
    case isFalse hpass =>
      simp only [Bool.or_eq_true, Bool.not_eq_true', beq_iff_eq, decide_eq_true_eq, not_or,
        Bool.not_eq_false, Nat.not_lt] at hpass
      cases stage <;> simp [Chrif.passes, hpass]
  · intro h
    have husable := h .resetReg
    have hblock := h .account
    have hmapped := h .clear
    simp only [Chrif.passes, bne_iff_ne, decide_eq_true_eq] at husable hblock hmapped
    simp [husable, hblock, hmapped]

theorem doReadData_isSome (cfg : Config) (a : Answers) :
    (doReadData cfg a).isSome ↔ cfg.passesRead = true := by
  unfold doReadData
  split
  case isTrue h => simpa using h
  case isFalse h => simpa using h

/-! ## The law -/

/-- The operation the request names was carried out: there is one, the code came to its
end and no call on the way failed. -/
def Completed (req : Request) (done : Done) : Prop :=
  Ring.operationOf req.operation ≠ .unknown ∧ done.finished = true ∧ ∀ ok ∈ done.calls, ok = true

/-- The front end sees the status advanced exactly for a completed operation, and not
advanced for any other. -/
def StatusTells (req : Request) (done : Done) : Prop :=
  ∃ resp, done.response = some resp ∧ (resp.status = req.status + 1 ↔ Completed req done) ∧
    (¬ Completed req done → resp.status = req.status)

structure WriteSucceeds (cfg : Config) (req : Request) (a : Answers) : Prop where
  resetReg : a.resetReg = 0
  lenReg : a.lenReg = 0
  write : ∀ i < Server.writeBlocks cfg.info req.length, 0 ≤ a.write i
  readReg : a.readReg = 0
  read : ∀ i < (readCount a.val.toInt32 cfg.info.rdBlockSz.toInt32).toNatClampNeg, 0 ≤ a.read i
  resetAfter : a.resetAfter = 0

/-- The requests whose response is right. -/
def Answered (cfg : Config) (mapped : Nat) (req : Request) (a : Answers) : Prop :=
  match Ring.operationOf req.operation with
  | .write => cfg.devOn ∧ cfg.usable ∧ cfg.info.wtBlockSz ≠ 0 ∧ cfg.info.rdBlockSz ≠ 0 ∧
      shareMemoryPn ≤ mapped ∧ WriteSucceeds cfg req a
  | .ioctl => cfg.usable ∧ a.ioctlStat = 0
  | .map => False
  | .unknown => True

variable {cfg : Config} {mapped : Nat} {req : Request} {a : Answers}

theorem succ_ne_self (v : UInt32) : v + 1 ≠ v := by
  intro h
  have hnat := congrArg UInt32.toNat h
  rw [UInt32.toNat_add, UInt32.toNat_one] at hnat
  have := v.toNat_lt
  omega

/-- A response with the status advanced tells the truth exactly when the operation
was completed. -/
theorem tells_of_advanced {done : Done} {resp : Response} (hresp : done.response = some resp)
    (hstatus : resp.status = req.status + 1) : StatusTells req done ↔ Completed req done := by
  constructor
  · rintro ⟨resp', hresp', hiff, _⟩
    obtain rfl : resp = resp' := Option.some.inj (hresp.symm.trans hresp')
    exact hiff.mp hstatus
  · intro h
    exact ⟨resp, hresp, iff_of_true hstatus h, fun hnot => absurd h hnot⟩

theorem not_tells_of_silent {done : Done} (h : done.response = none) : ¬ StatusTells req done := by
  rintro ⟨resp, hresp, _⟩
  rw [h] at hresp
  cases hresp

theorem forall_mem_map_decide {n : Nat} {P : Nat → Prop} [DecidablePred P] :
    (∀ ok ∈ (List.range n).map fun i => decide (P i), ok = true) ↔ ∀ i < n, P i := by
  simp only [List.mem_map, List.mem_range, forall_exists_index, and_imp,
    forall_apply_eq_imp_iff₂, decide_eq_true_eq]

theorem calls_transfer {calls : List Bool} (h : transfer cfg mapped req a = some calls) :
    (cfg.usable = true ∧ cfg.info.wtBlockSz ≠ 0 ∧ shareMemoryPn ≤ mapped) ∧ ((∀ ok ∈ calls, ok = true) ↔
      a.resetReg = 0 ∧ a.lenReg = 0 ∧
        ∀ i < Server.writeBlocks cfg.info req.length, 0 ≤ a.write i) := by
  unfold transfer at h
  split at h
  case isTrue => cases h
  case isFalse hpass =>
    cases h
    refine ⟨by simpa [not_or, and_assoc] using hpass, ?_⟩
    rw [List.forall_mem_cons, List.forall_mem_cons, forall_mem_map_decide, decide_eq_true_eq,
      decide_eq_true_eq]

theorem calls_doReadData {calls : List Bool} (h : doReadData cfg a = some calls) :
    cfg.passesRead = true ∧ ((∀ ok ∈ calls, ok = true) ↔ a.readReg = 0 ∧
      (∀ i < (readCount a.val.toInt32 cfg.info.rdBlockSz.toInt32).toNatClampNeg, 0 ≤ a.read i) ∧
        a.resetAfter = 0) := by
  unfold doReadData at h
  split at h
  case isTrue => cases h
  case isFalse hpass =>
    cases h
    refine ⟨by simpa using hpass, ?_⟩
    rw [List.cons_append, List.forall_mem_cons, List.forall_mem_append, forall_mem_map_decide,
      List.forall_mem_singleton, decide_eq_true_eq, decide_eq_true_eq]

/-- A server answers every WRITE it gets to the end of with the status advanced. -/
theorem tells_doWriteResp (hop : Ring.operationOf req.operation = .write) (hon : cfg.devOn = true) :
    StatusTells req (doWriteResp cfg mapped req a) ↔
      cfg.usable ∧ cfg.info.wtBlockSz ≠ 0 ∧ cfg.info.rdBlockSz ≠ 0 ∧ shareMemoryPn ≤ mapped ∧
        WriteSucceeds cfg req a := by
  unfold doWriteResp
  cases htransfer : transfer cfg mapped req a with
  | none =>
    refine iff_of_false (not_tells_of_silent rfl) ?_
    rintro ⟨husable, hwt, _, hmapped, _⟩
    simp [transfer, husable, hwt, hmapped] at htransfer
  | some calls =>
    obtain ⟨⟨husable, hwt, hmapped⟩, hcalls⟩ := calls_transfer htransfer
    simp only [hon, if_true]
    cases hread : doReadData cfg a with
    | none =>
      refine iff_of_false (not_tells_of_silent rfl) ?_
      rintro ⟨_, _, hrd, _⟩
      simp [doReadData, Config.passesRead, husable, hrd] at hread
    | some reads =>
      obtain ⟨hpass, hreads⟩ := calls_doReadData hread
      have hrd : cfg.info.rdBlockSz ≠ 0 := by
        simpa [Config.passesRead, husable] using hpass
      rw [tells_of_advanced rfl rfl, Completed, hop, List.forall_mem_append, hcalls, hreads]
      constructor
      · rintro ⟨_, _, ⟨hreset, hlen, hwrite⟩, hreg, hreadBlocks, hafter⟩
        exact ⟨husable, hwt, hrd, hmapped, hreset, hlen, hwrite, hreg, hreadBlocks, hafter⟩
      · rintro ⟨_, _, _, _, h⟩
        exact ⟨by decide, rfl, ⟨h.resetReg, h.lenReg, h.write⟩, h.readReg, h.read, h.resetAfter⟩

theorem tells_doIoctlResp (hop : Ring.operationOf req.operation = .ioctl) :
    StatusTells req (doIoctlResp cfg mapped req a) ↔ cfg.usable ∧ a.ioctlStat = 0 := by
  unfold doIoctlResp
  split
  case isTrue hdead =>
    refine iff_of_false (not_tells_of_silent rfl) ?_
    rintro ⟨husable, _⟩
    simp [husable] at hdead
  case isFalse hlive =>
    have husable : cfg.usable = true := by simpa using hlive
    rw [tells_of_advanced rfl rfl, Completed, hop]
    simp [husable]

/-- A client gives no answer to a WRITE, whatever becomes of it. -/
theorem response_dispatchRemoteQueue (hoff : cfg.devOn = false) :
    (dispatchRemoteQueue cfg mapped req a).response = none := by
  have hnone : (doWriteResp cfg mapped req a).response = none := by
    unfold doWriteResp
    split
    · rfl
    · rw [hoff]
      rfl
  unfold dispatchRemoteQueue
  simp only
  split <;> exact hnone

/-- The status of a response is right for unknown operations, for an IOCTL that does not
fail and for a server's WRITE into mapped pages none of whose calls fails, and for no other
request. -/
theorem status_tells (cfg : Config) (mapped : Nat) (req : Request) (a : Answers) :
    StatusTells req (serve cfg mapped req a) ↔ Answered cfg mapped req a := by
  unfold serve Answered
  cases hop : Ring.operationOf req.operation with
  | write =>
    simp only
    split
    case isTrue hon =>
      rw [tells_doWriteResp hop hon]
      simp only [hon, true_and]
    case isFalse hoff =>
      refine iff_of_false (not_tells_of_silent (response_dispatchRemoteQueue (by simpa using hoff))) ?_
      rintro ⟨hon, _⟩
      exact hoff hon
  | ioctl => exact tells_doIoctlResp hop
  | map => exact iff_of_false (not_tells_of_silent rfl) id
  | unknown =>
    have hback : req.status - 1 + 1 = req.status := UInt32.sub_add_cancel _ _
    have hnot : ∀ done, ¬ Completed req done := fun done h => h.1 hop
    refine iff_of_true ⟨_, rfl, ?_, fun _ => hback⟩ trivial
    refine iff_of_false ?_ (hnot _)
    intro h
    exact succ_ne_self req.status (h.symm.trans hback)

/-- The statistics of a server whose device refuses them: the response says success. -/
theorem failed_ioctl_advances :
    ¬ StatusTells { id := 7, operation := 1, status := 4, length := 0 }
      (serve (serverConfig { rdBlockSz := 4096, wtBlockSz := 4096 } 8) 0
        { id := 7, operation := 1, status := 4, length := 0 } { ioctlStat := -25 }) := by
  rintro ⟨resp, hresp, hiff, _⟩
  cases hresp
  obtain ⟨_, _, hcalls⟩ := hiff.mp rfl
  exact absurd (hcalls false (by decide)) (by decide)

end PdmaXen.NetDom0.Status
