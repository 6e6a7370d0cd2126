import PdmaXen.NetDom0.Backend

/-!
# The device file from `dom_init` to `dom_exit`

`dom_init` asks `filp_open` for NULL, which it never returns, so a failed open makes
a server too. `dom_exit` closes the file first and asks the threads to stop then.
-/

namespace PdmaXen.NetDom0
set_option autoImplicit false
open Machine

/-- Where `dom_exit` is. `faulted`: `filp_close` of an error pointer. -/
inductive ExitPc where
  | loaded
  | stopReq
  | waitReq
  | stopCon
  | waitCon
  | unregister
  | unloaded
  | faulted
deriving DecidableEq

/-- The module: `fileOpen` says whether `chrif_filp` is an open file, `reqStop` whether
`reqthrd` is asked to stop; `calls` is history: `fileOpen` at each call through it. -/
structure Module where
  backend : Backend := {}
  fileOpen : Bool
  exit : ExitPc := .loaded
  reqStop : Bool := false
  calls : List Bool := []

/-- `dom_init` after `filp_open`: a file or an error pointer. -/
def domConfig (opens : Bool) (info : PdmaInfo) (ringSize : Nat) (strayCall : Bool) : Config :=
  { filp := if opens then .opened else .errPtr, info, ringSize, strayCall }

def domInit (opens : Bool) : Module := { fileOpen := opens }

def Stage.calls : Stage → Bool
  | .resetReg | .lenReg | .blocks => true
  | .account | .clear => false

def ReqPc.calls : ReqPc → Bool
  | .writeResp _ _ stage => stage.calls
  | .readData _ _ | .remoteOp => true
  | .wait | .respond _ _ | .dead => false

def ConPc.calls : ConPc → Bool
  | .writeResp _ _ stage => stage.calls
  | _ => false

def Chrif.calls (c : Chrif) : Bool :=
  match c.irq with
  | .serve r _ => c.operation r == .ioctl
  | _ => false

/-- The step calls `pdma_write`, `pdma_read` or `pdma_ioctl_op`. -/
def Backend.calls (cfg : Config) (s : Backend) : Label → Bool
  | .put _ _ => false
  | .irq d _ => (s.chrif d).calls
  | .reqthrd => cfg.devOn && s.reqThrd.calls
  | .conthrd _ => !cfg.devOn && s.conThrd.calls

namespace Module

def config (cfg : Config) (s : Module) : Config :=
  if s.fileOpen then cfg else { cfg with filp := .errPtr }

/-- `xen_queue_pop` of the empty queue is NULL, and the thread takes it for a task. -/
def popsNull (cfg : Config) (s : Module) : Bool :=
  cfg.devOn && s.reqStop && s.backend.reqThrd == .wait && s.backend.nativeQueue == []

def next (cfg : Config) (s : Module) : Label → Backend
  | .put d op => s.backend.put d op
  | .irq d env => s.backend.irqStep (s.config cfg) d env
  | .reqthrd =>
    if s.popsNull cfg then { s.backend with reqThrd := .dead }
    else s.backend.reqStep (s.config cfg)
  | .conthrd datagram => s.backend.conStep (s.config cfg) datagram

def run (cfg : Config) (s : Module) (l : Label) : Module :=
  { s with
    backend := s.next cfg l
    calls := s.calls ++ if s.backend.calls cfg l then [s.fileOpen] else [] }

/-- One step of `dom_exit`. A stop waits for the end of its thread, and only a fault
ends one. -/
def exitStep (cfg : Config) (s : Module) : Module :=
  match s.exit with
  | .loaded =>
    if !cfg.devOn then { s with exit := .stopReq }
    else if s.fileOpen then { s with fileOpen := false, exit := .stopReq }
    else { s with exit := .faulted }
  | .stopReq => { s with reqStop := true, exit := .waitReq }
  | .waitReq => if s.backend.reqThrd = .dead then { s with exit := .stopCon } else s
  | .stopCon => { s with exit := .waitCon }
  | .waitCon => if s.backend.conThrd = .dead then { s with exit := .unregister } else s
  | .unregister => { s with exit := .unloaded }
  | .unloaded | .faulted => s

inductive Step where
  | run (l : Label)
  | exit

def step (cfg : Config) (s : Module) : Step → Option Module
  | .run l => some (s.run cfg l)
  | .exit => some (s.exitStep cfg)

theorem step_total (cfg : Config) (s : Module) (l : Step) : ∃ t, s.step cfg l = some t := by
  cases l <;> exact ⟨_, rfl⟩

end Module

/-- Every call went through an open file, and after a failed open there is a client that
makes none. -/
structure FileValid (cfg : Config) (opens : Bool) (s : Module) : Prop where
  calls : ∀ c ∈ s.calls, c = true
  role : opens = false → cfg.devOn = false ∧ s.calls = []

/-- The requests that reach the device. -/
def Op.reaches : Op → Bool
  | .write | .ioctl => true
  | .map | .unknown => false

/-- No request on the ring is on its way to the device. -/
structure Chrif.Quiet (c : Chrif) : Prop where
  serving : ∀ r rp, c.irq = .serve r rp → (c.operation r).reaches = false
  pending : ∀ r, c.reqCons ≤ r → (c.operation r).reaches = false

/-- No task and no request is on its way to the device. -/
structure Backend.Quiet (b : Backend) : Prop where
  queue : b.nativeQueue = []
  service : b.reqThrd = .wait ∨ b.reqThrd = .dead
  chrif : ∀ d, (b.chrif d).Quiet

/-- `dom_exit` closes the file while the module is quiet, and nothing that reaches the
device arrives afterwards. -/
def ClosesQuietly (s : Module) : Module.Step → Prop
  | .exit => s.exit = .loaded → s.backend.Quiet
  | .run (.put _ op) => s.exit = .loaded ∨ op.reaches = false
  | .run (.conthrd datagram) => s.exit = .loaded ∨ datagram = false
  | .run (.irq _ _) | .run .reqthrd => True

/-! ## A quiet module stays quiet -/

section
variable {cfg : Config} {c : Chrif} {b : Backend} {s t : Module}

theorem operation_put (c : Chrif) {op : Op} (hop : op.reaches = false) {r : Req}
    (hr : (c.operation r).reaches = false) :
    (({ c with reqs := c.reqs ++ [op] } : Chrif).operation r).reaches = false := by
  simp only [Chrif.operation, List.getD_eq_getElem?_getD] at hr ⊢
  rcases Nat.lt_trichotomy r c.reqs.length with hlt | rfl | hgt
  · rwa [List.getElem?_append_left hlt]
  · simpa using hop
  · rw [List.getElem?_eq_none (by simp; omega)]
    rfl

theorem Chrif.Quiet.put (h : c.Quiet) {op : Op} (hop : op.reaches = false) :
    ({ c with reqs := c.reqs ++ [op] } : Chrif).Quiet :=
  ⟨fun r rp hirq => operation_put c hop (h.serving r rp hirq),
    fun r hr => operation_put c hop (h.pending r hr)⟩

theorem Chrif.Quiet.goto (h : c.Quiet) {c' : Chrif} (hreqs : c'.reqs = c.reqs)
    (hcons : c'.reqCons = c.reqCons) (hirq : ∀ r rp, c'.irq ≠ .serve r rp) : c'.Quiet := by
  refine ⟨fun r rp hserve => absurd hserve (hirq r rp), fun r hr => ?_⟩
  rw [Chrif.operation, hreqs]
  exact h.pending r (hcons ▸ hr)

theorem Chrif.Quiet.irqStep (h : c.Quiet) (cfg : Config) (env : IrqEnv) :
    (c.irqStep cfg env).Quiet := by
  unfold Chrif.irqStep
  cases hirq : c.irq with
  | idle => exact h.goto rfl rfl nofun
  | fetch => exact h.goto rfl rfl nofun
  | scan rp =>
    simp only
    split
    · exact h.goto rfl rfl nofun
    split
    · exact h.goto rfl rfl nofun
    split
    · exact h.goto rfl rfl nofun
    split
    · exact h.goto rfl rfl nofun
    · refine ⟨fun r rp' hserve => ?_, fun r hr => h.pending r (Nat.le_of_succ_le hr)⟩
      cases hserve
      exact h.pending _ (Nat.le_refl _)
  | serve r rp =>
    simp only
    split
    · exact h.goto rfl rfl nofun
    · split <;> exact h.goto rfl rfl nofun
    · exact h.goto rfl rfl nofun
    · exact h.goto rfl rfl nofun
  | finalCheck =>
    refine h.goto rfl rfl fun r rp => ?_
    simp only [Chrif.setIrq]
    split <;> nofun
  | dead => exact h

theorem Chrif.Quiet.pushes_eq (h : c.Quiet) : c.pushes = none := by
  unfold Chrif.pushes
  split
  · next r rp hirq =>
    refine if_neg fun hop => ?_
    have hreaches := h.serving r rp hirq
    rw [hop] at hreaches
    cases hreaches
  · rfl

theorem Chrif.Quiet.calls_eq (h : c.Quiet) : c.calls = false := by
  unfold Chrif.calls
  split
  · next r rp hirq =>
    have hreaches := h.serving r rp hirq
    cases hop : c.operation r with
    | ioctl =>
      rw [hop] at hreaches
      cases hreaches
    | _ => rfl
  · rfl

theorem Backend.Quiet.setChrif (h : b.Quiet) (d : Dom) (hc : c.Quiet) : (b.setChrif d c).Quiet where
  queue := h.queue
  service := h.service
  chrif d' := by
    rcases eq_or_ne d' d with rfl | hne
    · rw [Backend.setChrif_self]
      exact hc
    · rw [Backend.setChrif_of_ne _ _ hne]
      exact h.chrif d'

theorem Backend.Quiet.irqStep (h : b.Quiet) (cfg : Config) (d : Dom) (env : IrqEnv) :
    (b.irqStep cfg d env).Quiet := by
  rw [Backend.irqStep, (h.chrif d).pushes_eq]
  exact h.setChrif d ((h.chrif d).irqStep cfg env)

theorem Backend.Quiet.reqStep (h : b.Quiet) (cfg : Config) : b.reqStep cfg = b := by
  unfold Backend.reqStep
  rw [h.queue]
  rcases h.service with hpc | hpc <;> simp [hpc]

theorem Backend.Quiet.calls_eq (h : b.Quiet) (hdev : cfg.devOn = true) (l : Label) :
    b.calls cfg l = false := by
  cases l with
  | put d op => rfl
  | irq d env => exact (h.chrif d).calls_eq
  | reqthrd => rcases h.service with hpc | hpc <;> simp [Backend.calls, hpc, ReqPc.calls]
  | conthrd datagram => simp [Backend.calls, hdev]

/-- Before `dom_exit` the file is open, after it the module is quiet. -/
structure Guarded (s : Module) : Prop where
  calls : ∀ c ∈ s.calls, c = true
  opened : s.exit = .loaded → s.fileOpen = true
  quiet : s.exit ≠ .loaded → s.backend.Quiet

theorem Module.devOn_config (s : Module) (hdev : cfg.devOn = true) :
    (s.config cfg).devOn = true := by
  unfold Module.config
  split
  · exact hdev
  · rfl

theorem Guarded.next_quiet (h : Guarded s) (hdev : cfg.devOn = true) {l : Label}
    (hc : ClosesQuietly s (.run l)) (hexit : s.exit ≠ .loaded) : (s.next cfg l).Quiet := by
  have hquiet := h.quiet hexit
  cases l with
  | put d op =>
    have hop : op.reaches = false := hc.resolve_left hexit
    exact hquiet.setChrif d ((hquiet.chrif d).put hop)
  | irq d env => exact hquiet.irqStep (s.config cfg) d env
  | reqthrd =>
    simp only [Module.next]
    split
    · exact ⟨hquiet.queue, .inr rfl, hquiet.chrif⟩
    · rw [hquiet.reqStep]
      exact hquiet
  | conthrd datagram =>
    have hnone : datagram = false := hc.resolve_left hexit
    rw [Module.next, Backend.conStep, if_pos (s.devOn_config hdev), hnone]
    exact hquiet

theorem Guarded.run (h : Guarded s) (hdev : cfg.devOn = true) {l : Label}
    (hc : ClosesQuietly s (.run l)) : Guarded (s.run cfg l) where
  calls c hmem := by
    rcases List.mem_append.mp hmem with hmem | hmem
    · exact h.calls c hmem
    · split at hmem
      · next hcalls =>
        rw [List.mem_singleton.mp hmem]
        by_contra hclosed
        have hexit : s.exit ≠ .loaded := fun hexit => hclosed (h.opened hexit)
        rw [(h.quiet hexit).calls_eq hdev] at hcalls
        cases hcalls
      · cases hmem
  opened := h.opened
  quiet hexit := h.next_quiet hdev hc hexit

theorem Guarded.exitStep (h : Guarded s) (hdev : cfg.devOn = true)
    (hc : ClosesQuietly s .exit) : Guarded (s.exitStep cfg) := by
  unfold Module.exitStep
  cases hexit : s.exit with
  | loaded =>
    simp only [hdev, Bool.not_true, Bool.false_eq_true, if_false, h.opened hexit, if_true]
    exact ⟨h.calls, nofun, fun _ => hc hexit⟩
  | waitReq =>
    simp only
    split
    · exact ⟨h.calls, nofun, fun _ => h.quiet (by rw [hexit]; nofun)⟩
    · exact h
  | waitCon =>
    simp only
    split
    · exact ⟨h.calls, nofun, fun _ => h.quiet (by rw [hexit]; nofun)⟩
    · exact h
  | stopReq | stopCon | unregister =>
    exact ⟨h.calls, nofun, fun _ => h.quiet (by rw [hexit]; nofun)⟩
  | unloaded | faulted => exact h

theorem Guarded.step (h : Guarded s) (hdev : cfg.devOn = true) {l : Module.Step}
    (hc : ClosesQuietly s l) (hstep : s.step cfg l = some t) : Guarded t := by
  cases l with
  | run l =>
    cases hstep
    exact h.run hdev hc
  | exit =>
    cases hstep
    exact h.exitStep hdev hc

end

/-- A failed open always makes a server; with the device open every call finds an open
file in the runs that close quietly. -/
theorem device_file_valid (opens : Bool) (info : PdmaInfo) (ringSize : Nat) (strayCall : Bool)
    (ls : List Module.Step) :
    ∃ t, exec (Module.step (domConfig opens info ringSize strayCall)) (domInit opens) ls = some t ∧
      (opens = false → ¬FileValid (domConfig opens info ringSize strayCall) opens t) ∧
      (opens = true →
        Along (Module.step (domConfig opens info ringSize strayCall)) ClosesQuietly
          (domInit opens) ls →
        FileValid (domConfig opens info ringSize strayCall) opens t) := by
  have htotal := Module.step_total (domConfig opens info ringSize strayCall)
  obtain ⟨t, hrun⟩ := exec_total htotal (domInit opens) ls
  refine ⟨t, hrun, ?_, ?_⟩
  · rintro rfl hvalid
    have hclient := (hvalid.role rfl).1
    cases hclient
  · rintro rfl hls
    have hstart : Guarded (domInit true) := ⟨nofun, fun _ => rfl, fun h => absurd rfl h⟩
    have hend : Guarded t :=
      invariant_along (I := Guarded) (fun h hc hstep => h.step rfl hc hstep) hstart hls hrun
    exact ⟨hend.calls, nofun⟩

def servedThenClosed : List Module.Step :=
  [.run (.conthrd true), .run .reqthrd, .run .reqthrd, .exit, .exit, .run .reqthrd]

theorem quiet_initial : ({} : Chrif).Quiet := ⟨nofun, fun _ _ => rfl⟩

theorem device_file_valid_served :
    ∃ t, exec (Module.step (domConfig true ⟨4096, 4096⟩ 32 false)) (domInit true) servedThenClosed
      = some t ∧ FileValid (domConfig true ⟨4096, 4096⟩ 32 false) true t := by
  obtain ⟨t, hrun, -, hvalid⟩ := device_file_valid true ⟨4096, 4096⟩ 32 false servedThenClosed
  refine ⟨t, hrun, hvalid rfl ?_⟩
  refine .cons rfl (.inl rfl) (.cons rfl trivial (.cons rfl trivial ?_))
  refine .cons rfl (fun _ => ⟨rfl, .inl rfl, fun _ => quiet_initial⟩) ?_
  exact .cons rfl nofun (.cons rfl trivial trivial)

def closedInService : List Module.Step :=
  [.run (.conthrd true), .run .reqthrd, .exit, .run .reqthrd]

/-- Without a card a datagram makes the server call through the error pointer, and with
one the service goes on after the file is closed. -/
theorem invalid_file_called :
    (∃ t, exec (Module.step (domConfig false ⟨4096, 4096⟩ 32 false)) (domInit false)
      [.run (.conthrd true), .run .reqthrd, .run .reqthrd] = some t ∧
      ¬FileValid (domConfig false ⟨4096, 4096⟩ 32 false) false t ∧ t.calls = [false]) ∧
    (∃ t, exec (Module.step (domConfig true ⟨4096, 4096⟩ 32 false)) (domInit true) closedInService
      = some t ∧ ¬FileValid (domConfig true ⟨4096, 4096⟩ 32 false) true t ∧ t.calls = [false]) := by
  refine ⟨⟨_, rfl, fun hvalid => ?_, rfl⟩, ⟨_, rfl, fun hvalid => ?_, rfl⟩⟩
  · exact absurd (hvalid.role rfl).1 (by decide)
  · exact absurd (hvalid.calls false (List.mem_singleton.mpr rfl)) (by decide)

end PdmaXen.NetDom0
