import Mathlib.Algebra.Group.Nat.Defs
import PdmaXen.Machine

/-!
# The notifications of a front end

One ring of the Dom0 back end: its front end, its event channel with `chrif_int`, and
its service thread `xen_chrif_schedule`. A step is one access to a variable that
another party writes, or one operation on `chrif->wq`. What serving a request does
beyond answering it is left to the other modules.
-/

namespace PdmaXen.Dom0.Notify
set_option autoImplicit false
open Machine

/-! ## Ring indices -/

/-- `a - b` of two `RING_IDX`. The state counts without bound, the code modulo `2 ^ 32`. -/
def idxSub (a b : Nat) : Nat := (UInt32.ofNat a - UInt32.ofNat b).toNat

theorem idxSub_eq {a b : Nat} (hle : b ≤ a) (hlt : a - b < 2 ^ 32) : idxSub a b = a - b := by
  rw [idxSub, UInt32.toNat_sub, UInt32.toNat_ofNat', UInt32.toNat_ofNat']
  omega

/-! ## State -/

/-- `wait_event_interruptible` on `chrif->wq` is `waitTest` to `asleep`, the wait for a
free `pending_req` is `pending`; `scan` and `serve` carry the `rp` of `__do_char_io_op`. -/
inductive Pc where
  | loopTest
  | waitTest
  | prepare
  | retest
  | asleep
  | pending
  | clear
  | fetch
  | scan (rp : Nat)
  | serve (rp : Nat)
  | finalCheck
  | setEvent
  | recheck
  | setWaiting
  | ended
deriving DecidableEq

/-- `chrif_notify_request`, called by `chrif_int`. -/
inductive IrqPc where
  | idle
  | setWaiting
  | wake
deriving DecidableEq

/-- `RING_PUSH_REQUESTS_AND_CHECK_NOTIFY` after its store of `req_prod`, which was `old`,
and the notification it may ask for. -/
inductive FrontPc where
  | idle
  | check (old : Nat)
  | send (old : Nat)
deriving DecidableEq

/-- `evt` says that the event channel is pending, `onWq` that the wait entry of the thread
is on `chrif->wq`. `pushed` is history: the requests the front end has published, with
the event they asked for sent. -/
structure State where
  reqProd : Nat := 0
  reqEvent : Nat := 1
  reqCons : Nat := 0
  rspProdPvt : Nat := 0
  waitingReqs : Bool
  stop : Bool := false
  evt : Bool
  onWq : Bool := false
  pc : Pc := .loopTest
  irq : IrqPc := .idle
  front : FrontPc := .idle
  reqProdPvt : Nat := 0
  rspCons : Nat := 0
  pushed : Nat := 0
deriving DecidableEq

/-- A connected front end. `waiting_reqs` is not initialised, and binding the event
channel may leave an event. -/
def start (waitingReqs evt : Bool) : State := { waitingReqs, evt }

/-- What the environment answers a step of the thread: `woken` a wake-up that does not
come from the queue, `free` whether a `pending_req` is to be had, `answered` whether
the request gets a response. -/
structure Env where
  woken : Bool := false
  free : Bool := true
  answered : Bool := true
deriving DecidableEq

namespace State

def unconsumed (s : State) (size : Nat) : Nat :=
  min (idxSub s.reqProd s.reqCons) (size - idxSub s.reqCons s.rspProdPvt)

def threadStep (size : Nat) (s : State) (env : Env) : State :=
  match s.pc with
  | .loopTest => { s with pc := if s.stop then .ended else .waitTest }
  | .waitTest => { s with pc := if s.waitingReqs || s.stop then .pending else .prepare }
  | .prepare => { s with onWq := true, pc := .retest }
  | .retest =>
    if s.waitingReqs || s.stop || env.woken then { s with onWq := false, pc := .pending }
    else { s with pc := .asleep }
  | .asleep => if s.onWq && !env.woken then s else { s with pc := .prepare }
  | .pending => if env.free || s.stop || env.woken then { s with pc := .clear } else s
  | .clear => { s with waitingReqs := false, pc := .fetch }
  | .fetch => { s with pc := .scan s.reqProd }
  | .scan rp =>
    if UInt32.ofNat s.reqCons = UInt32.ofNat rp then { s with pc := .finalCheck }
    -- `RING_REQUEST_CONS_OVERFLOW`
    else if size ≤ idxSub s.reqCons s.rspProdPvt then { s with pc := .finalCheck }
    else if s.stop then { s with pc := .setWaiting }
    else if !env.free then { s with pc := .setWaiting }
    else { s with reqCons := s.reqCons + 1, pc := .serve rp }
  | .serve rp =>
    { s with rspProdPvt := if env.answered then s.rspProdPvt + 1 else s.rspProdPvt, pc := .scan rp }
  -- `RING_FINAL_CHECK_FOR_REQUESTS`
  | .finalCheck => { s with pc := if 0 < s.unconsumed size then .fetch else .setEvent }
  | .setEvent => { s with reqEvent := s.reqCons + 1, pc := .recheck }
  | .recheck => { s with pc := if 0 < s.unconsumed size then .fetch else .loopTest }
  | .setWaiting => { s with waitingReqs := true, pc := .loopTest }
  | .ended => s

def irqStep (s : State) : State :=
  match s.irq with
  | .idle => { s with evt := false, irq := .setWaiting }
  | .setWaiting => { s with waitingReqs := true, irq := .wake }
  | .wake => { s with onWq := false, irq := .idle }

def pushStep (s : State) : State :=
  match s.front with
  | .idle => { s with reqProd := s.reqProdPvt, front := .check s.reqProd }
  | .check old =>
    if idxSub s.reqProd s.reqEvent < idxSub s.reqProd old then { s with front := .send old }
    else { s with front := .idle, pushed := s.reqProd }
  | .send _ => { s with evt := true, front := .idle, pushed := s.reqProd }

end State

/-- `put` writes a request, `take` reads `n` responses; the others are steps. -/
inductive Label where
  | put
  | take (n : Nat)
  | push
  | irq
  | thread (env : Env)
  | kthreadStop
deriving DecidableEq

/-- The front end looks at `RING_FULL` before it writes a request, and reads only
responses that are there. -/
def step (size : Nat) (s : State) : Label → Option State
  | .put =>
    if s.front = .idle ∧ s.reqProdPvt - s.rspCons < size then
      some { s with reqProdPvt := s.reqProdPvt + 1 }
    else none
  | .take n =>
    if s.rspCons + n ≤ s.rspProdPvt then some { s with rspCons := s.rspCons + n } else none
  | .push => some s.pushStep
  | .irq => some s.irqStep
  | .thread env => some (s.threadStep size env)
  | .kthreadStop => some { s with stop := true }

/-! ## The invariant -/

namespace State

def Asleep (s : State) : Prop := s.pc = .asleep ∧ s.onWq = true

/-- An event has been sent and `chrif_int` has not dealt with it. -/
def EventPending (s : State) : Prop := s.evt = true ∨ s.irq ≠ .idle

end State

/-- The thread looks at `waiting_reqs` before it looks at the ring again. -/
def Pc.passive : Pc → Bool
  | loopTest | waitTest | prepare | retest | asleep => true
  | _ => false

structure Bounds (size : Nat) (s : State) : Prop where
  rsp : s.rspCons ≤ s.rspProdPvt
  answered : s.rspProdPvt ≤ s.reqCons
  cons : s.reqCons ≤ s.reqProd
  prod : s.reqProd ≤ s.reqProdPvt
  full : s.reqProdPvt ≤ s.rspCons + size
  serving : ∀ rp, s.pc = .serve rp → s.rspProdPvt < s.reqCons
  scanning : ∀ rp, s.pc = .scan rp ∨ s.pc = .serve rp → s.reqCons ≤ rp ∧ rp ≤ s.reqProd

def FrontOk (size : Nat) (s : State) : Prop :=
  match s.front with
  | .idle => s.pushed = s.reqProd
  | .check old | .send old => s.pushed = old ∧ old ≤ s.reqProd ∧ s.reqProd ≤ old + size

/-- The next push will notify: nothing is left, or what is left is being pushed just now. -/
def Armed (s : State) : Prop :=
  s.reqEvent = s.reqCons + 1 ∧
    (s.reqProd = s.reqCons ∨ ∃ old ≤ s.reqCons, s.front = .check old ∨ s.front = .send old)

/-- Somebody will make the thread look at the ring. -/
def Covered (s : State) : Prop :=
  s.waitingReqs = true ∨ s.evt = true ∨ s.irq = .setWaiting ∨ Armed s

structure Inv (size : Nat) (s : State) : Prop where
  bounds : Bounds size s
  front : FrontOk size s
  passive : s.pc.passive = true → Covered s
  recheck : s.pc = .recheck → s.reqEvent = s.reqCons + 1
  /-- whoever set `waiting_reqs` after the thread's last look is about to wake it -/
  wake : s.pc = .asleep → s.onWq = true → s.waitingReqs = true → s.irq = .wake

variable {size : Nat} {s t : State}

theorem Inv.start (size : Nat) (waitingReqs evt : Bool) : Inv size (start waitingReqs evt) := by
  refine ⟨⟨Nat.le_refl 0, Nat.le_refl 0, Nat.le_refl 0, Nat.le_refl 0, Nat.zero_le _, ?_, ?_⟩, rfl,
    fun _ => ?_, ?_, ?_⟩
  · intro rp hpc
    cases hpc
  · rintro rp (hpc | hpc) <;> cases hpc
  · exact .inr (.inr (.inr ⟨rfl, .inl rfl⟩))
  · intro hpc
    cases hpc
  · intro hpc
    cases hpc

/-! ## The service thread -/

theorem Bounds.unconsumed (h : Bounds size s) (hsize : size < 2 ^ 32) :
    0 < s.unconsumed size ↔ s.reqCons < s.reqProd := by
  obtain ⟨hrsp, hanswered, hcons, hprod, hfull, _, _⟩ := h
  rw [State.unconsumed, idxSub_eq hcons (by omega), idxSub_eq hanswered (by omega)]
  omega

theorem Inv.of_active (hbounds : Bounds size t) (hfront : FrontOk size t)
    (hpc : t.pc.passive = false) (hrecheck : t.pc ≠ .recheck) : Inv size t := by
  refine ⟨hbounds, hfront, fun hpassive => ?_, fun heq => absurd heq hrecheck, fun hasleep => ?_⟩
  · rw [hpc] at hpassive
    cases hpassive
  · rw [hasleep] at hpc
    cases hpc

theorem Bounds.goto (h : Bounds size s) (pc : Pc) (hserve : ∀ rp, pc ≠ .serve rp)
    (hscan : ∀ rp, pc ≠ .scan rp) : Bounds size { s with pc } :=
  { h with
    serving := fun rp hpc => absurd hpc (hserve rp)
    scanning := fun rp hpc => by
      rcases hpc with hpc | hpc
      · exact absurd hpc (hscan rp)
      · exact absurd hpc (hserve rp) }

theorem Inv.rely (h : Inv size s) (hcovered : Covered s) {pc : Pc} {onWq : Bool}
    (hpc : pc.passive = true)
    (hwake : pc = .asleep → onWq = true → s.waitingReqs = true → s.irq = .wake) :
    Inv size { s with pc, onWq } := by
  have hbounds : Bounds size { s with pc, onWq } := { h.bounds.goto pc
    (fun rp heq => by simp [heq, Pc.passive] at hpc)
    (fun rp heq => by simp [heq, Pc.passive] at hpc) with }
  refine ⟨hbounds, h.front, fun _ => hcovered, fun hrecheck => ?_, hwake⟩
  obtain rfl : pc = .recheck := hrecheck
  cases hpc

theorem threadStep_inv (hsize : size < 2 ^ 32) (h : Inv size s) (env : Env) :
    Inv size (s.threadStep size env) := by
  have hgoto : ∀ {pc : Pc}, (∀ rp, pc ≠ .serve rp) → (∀ rp, pc ≠ .scan rp) → pc.passive = false →
      pc ≠ .recheck → Inv size { s with pc } := fun hserve hscan hpassive hrecheck =>
    .of_active (h.bounds.goto _ hserve hscan) h.front hpassive hrecheck
  have hunconsumed := h.bounds.unconsumed hsize
  have hcovered := h.passive
  have hscanning := h.bounds.scanning
  have hserving := h.bounds.serving
  have hcons := h.bounds.cons
  unfold State.threadStep
  cases hpc : s.pc <;> simp only [hpc] at hcovered hscanning hserving <;> dsimp only
  case loopTest =>
    split
    · exact hgoto nofun nofun rfl nofun
    · exact h.rely (hcovered rfl) rfl nofun
  case waitTest =>
    split
    · exact hgoto nofun nofun rfl nofun
    · exact h.rely (hcovered rfl) rfl nofun
  case prepare => exact h.rely (hcovered rfl) rfl nofun
  case retest =>
    split
    case isTrue =>
      exact Inv.of_active { h.bounds.goto .pending nofun nofun with } h.front rfl nofun
    case isFalse hquiet =>
      refine h.rely (hcovered rfl) rfl fun _ _ hwaiting => ?_
      simp [hwaiting] at hquiet
  case asleep =>
    split
    · exact h
    · exact h.rely (hcovered rfl) rfl nofun
  case pending =>
    split
    · exact hgoto nofun nofun rfl nofun
    · exact h
  case clear => exact Inv.of_active { h.bounds.goto .fetch nofun nofun with } h.front rfl nofun
  case fetch =>
    refine Inv.of_active { h.bounds with serving := nofun, scanning := ?_ } h.front rfl nofun
    rintro rp (heq | heq)
    · cases heq
      exact ⟨hcons, Nat.le_refl _⟩
    · cases heq
  case scan rp =>
    obtain ⟨hle, hrp⟩ := hscanning rp (.inl rfl)
    have hanswered := h.bounds.answered
    split
    · exact hgoto nofun nofun rfl nofun
    · rename_i hne
      split
      · exact hgoto nofun nofun rfl nofun
      · split
        · exact hgoto nofun nofun rfl nofun
        · split
          · exact hgoto nofun nofun rfl nofun
          · have hlt : s.reqCons < rp := by
              rcases Nat.lt_or_eq_of_le hle with hlt | heq
              · exact hlt
              · exact absurd (congrArg UInt32.ofNat heq) hne
            refine Inv.of_active { h.bounds with
              answered := by simp only; omega
              cons := by simp only; omega
              serving := fun rp' heq => by simp only; omega
              scanning := ?_ } h.front rfl nofun
            rintro rp' (heq | heq)
            · cases heq
            · cases heq
              exact ⟨hlt, hrp⟩
  case serve rp =>
    have hlt := hserving rp rfl
    have hscan := hscanning rp (.inr rfl)
    have hrsp := h.bounds.rsp
    refine Inv.of_active { h.bounds with
      rsp := by simp only; split <;> omega
      answered := by simp only; split <;> omega
      serving := nofun
      scanning := ?_ } h.front rfl nofun
    rintro rp' (heq | heq)
    · cases heq
      exact hscan
    · cases heq
  case finalCheck =>
    split
    · exact hgoto nofun nofun rfl nofun
    · exact hgoto nofun nofun rfl nofun
  case setEvent =>
    refine ⟨{ h.bounds.goto .recheck nofun nofun with }, h.front, nofun, fun _ => rfl, nofun⟩
  case recheck =>
    split
    case isTrue => exact hgoto nofun nofun rfl nofun
    case isFalse hnone =>
      rw [hunconsumed] at hnone
      have hempty : s.reqProd = s.reqCons := by omega
      exact h.rely (.inr (.inr (.inr ⟨h.recheck hpc, .inl hempty⟩))) rfl nofun
  case setWaiting =>
    refine ⟨{ h.bounds.goto .loopTest nofun nofun with }, h.front, fun _ => .inl rfl, nofun, nofun⟩
  case ended => exact h

/-! ## The other parties -/

theorem irqStep_inv (h : Inv size s) : Inv size s.irqStep := by
  unfold State.irqStep
  cases hirq : s.irq <;> dsimp only
  case idle =>
    refine ⟨{ h.bounds with }, h.front, fun _ => .inr (.inr (.inl rfl)), h.recheck, ?_⟩
    intro hpc hwq hwaiting
    have hwake := h.wake hpc hwq hwaiting
    rw [hirq] at hwake
    cases hwake
  case setWaiting =>
    exact ⟨{ h.bounds with }, h.front, fun _ => .inl rfl, h.recheck, fun _ _ _ => rfl⟩
  case wake =>
    refine ⟨{ h.bounds with }, h.front, fun hpc => ?_, h.recheck, nofun⟩
    rcases h.passive hpc with hwaiting | hevt | hset | harmed
    · exact .inl hwaiting
    · exact .inr (.inl hevt)
    · rw [hirq] at hset
      cases hset
    · exact .inr (.inr (.inr harmed))

/-- A push that does not notify has left nothing behind for a thread that relies on it. -/
theorem empty_of_quiet (h : Bounds size s) (hsize : size < 2 ^ 32) {old : Nat}
    (hevent : s.reqEvent = s.reqCons + 1) (hle : old ≤ s.reqCons) (hsmall : s.reqProd ≤ old + size)
    (hquiet : ¬ idxSub s.reqProd s.reqEvent < idxSub s.reqProd old) : s.reqProd = s.reqCons := by
  have hcons := h.cons
  by_contra hne
  apply hquiet
  rw [hevent, idxSub_eq (by omega) (by omega), idxSub_eq (by omega) (by omega)]
  omega

theorem pushStep_inv (hsize : size < 2 ^ 32) (h : Inv size s) : Inv size s.pushStep := by
  have hfront := h.front
  have hcons := h.bounds.cons
  have hprod := h.bounds.prod
  unfold FrontOk at hfront
  unfold State.pushStep
  cases hf : s.front <;> simp only [hf] at hfront <;> dsimp only
  case idle =>
    refine ⟨{ h.bounds with
      cons := Nat.le_trans hcons hprod
      prod := Nat.le_refl _
      scanning := fun rp hpc => ?_ }, ⟨hfront, hprod, ?_⟩, fun hpc => ?_, h.recheck, h.wake⟩
    · obtain ⟨hle, hrp⟩ := h.bounds.scanning rp hpc
      exact ⟨hle, Nat.le_trans hrp hprod⟩
    · have hrsp := h.bounds.rsp
      have hanswered := h.bounds.answered
      have hfull := h.bounds.full
      simp only
      omega
    · refine (h.passive hpc).imp_right (Or.imp_right (Or.imp_right fun harmed => ?_))
      obtain ⟨hevent, hempty | ⟨old, _, hbusy⟩⟩ := harmed
      · exact ⟨hevent, .inr ⟨s.reqProd, Nat.le_of_eq hempty, .inl rfl⟩⟩
      · simp [hf] at hbusy
  case check old =>
    obtain ⟨hpushed, hold, hsmall⟩ := hfront
    split
    case isTrue =>
      refine ⟨{ h.bounds with }, ⟨hpushed, hold, hsmall⟩, fun hpc => ?_, h.recheck, h.wake⟩
      refine (h.passive hpc).imp_right (Or.imp_right (Or.imp_right fun harmed => ?_))
      obtain ⟨hevent, hempty | ⟨old', hle, hbusy⟩⟩ := harmed
      · exact ⟨hevent, .inl hempty⟩
      · obtain rfl : old = old' := by simpa [hf] using hbusy
        exact ⟨hevent, .inr ⟨old, hle, .inr rfl⟩⟩
    case isFalse hquiet =>
      refine ⟨{ h.bounds with }, rfl, fun hpc => ?_, h.recheck, h.wake⟩
      refine (h.passive hpc).imp_right (Or.imp_right (Or.imp_right fun harmed => ?_))
      obtain ⟨hevent, hempty | ⟨old', hle, hbusy⟩⟩ := harmed
      · exact ⟨hevent, .inl hempty⟩
      · obtain rfl : old = old' := by simpa [hf] using hbusy
        have hempty := empty_of_quiet (s := s) h.bounds hsize hevent hle hsmall hquiet
        exact ⟨hevent, .inl hempty⟩
  case send old =>
    exact ⟨{ h.bounds with }, rfl, fun _ => .inr (.inl rfl), h.recheck, h.wake⟩

theorem step_inv {l : Label} (hsize : size < 2 ^ 32) (h : Inv size s)
    (hstep : step size s l = some t) : Inv size t := by
  cases l with
  | put =>
    obtain ⟨⟨hidle, hroom⟩, heq⟩ := Option.ite_none_right_eq_some.mp hstep
    cases heq
    have hprod := h.bounds.prod
    refine ⟨{ h.bounds with prod := ?_, full := ?_ }, h.front, h.passive, h.recheck, h.wake⟩
    · simp only
      omega
    · simp only
      omega
  | take n =>
    obtain ⟨hthere, heq⟩ := Option.ite_none_right_eq_some.mp hstep
    cases heq
    have hfull := h.bounds.full
    refine ⟨{ h.bounds with rsp := hthere, full := ?_ }, h.front, h.passive, h.recheck, h.wake⟩
    simp only
    omega
  | push =>
    cases hstep
    exact pushStep_inv hsize h
  | irq =>
    cases hstep
    exact irqStep_inv h
  | thread env =>
    cases hstep
    exact threadStep_inv hsize h env
  | kthreadStop =>
    cases hstep
    exact ⟨{ h.bounds with }, h.front, h.passive, h.recheck, h.wake⟩

/-- In any run from the connection on: when the thread is asleep on its queue and no event
is pending, `waiting_reqs` is clear and every published request has been consumed. -/
theorem no_stranded_request {size : Nat} {waitingReqs evt : Bool} {t : State} {ls : List Label}
    (hsize : size < 2 ^ 32) (hrun : exec (step size) (start waitingReqs evt) ls = some t)
    (hasleep : t.Asleep) (hevent : ¬ t.EventPending) :
    t.waitingReqs = false ∧ t.pushed ≤ t.reqCons ∧ (t.front = .idle → t.reqCons = t.reqProd) := by
  have hinv : Inv size t := invariant (I := Inv size) (step_inv hsize) (.start size waitingReqs evt) hrun
  obtain ⟨hpc, hwq⟩ := hasleep
  simp only [State.EventPending, ne_eq, not_or, Decidable.not_not] at hevent
  obtain ⟨hevt, hirq⟩ := hevent
  have hquiet : t.waitingReqs = false := by
    cases hwaiting : t.waitingReqs with
    | false => rfl
    | true =>
      have hwake := hinv.wake hpc hwq hwaiting
      rw [hirq] at hwake
      cases hwake
  have hfront := hinv.front
  unfold FrontOk at hfront
  refine ⟨hquiet, ?_⟩
  rcases hinv.passive (by rw [hpc]; rfl) with hwaiting | hset | hset | ⟨_, hempty | ⟨old, hle, hbusy⟩⟩
  · simp [hquiet] at hwaiting
  · exact absurd hset hevt
  · rw [hirq] at hset
    cases hset
  · cases hf : t.front <;> simp only [hf] at hfront
    · exact ⟨by omega, fun _ => hempty.symm⟩
    · exact ⟨by omega, nofun⟩
    · exact ⟨by omega, nofun⟩
  · rcases hbusy with hf | hf
    · simp only [hf] at hfront
      exact ⟨by omega, by simp [hf]⟩
    · simp only [hf] at hfront
      exact ⟨by omega, by simp [hf]⟩

theorem no_stranded_request_one :
    ∃ t, exec (step 32) (start false false)
        (List.replicate 4 (.thread {}) ++ [.put, .push, .push, .push, .irq, .irq, .irq] ++
          List.replicate 16 (.thread {})) = some t ∧
      t.pushed = 1 ∧ t.waitingReqs = false ∧ t.pushed ≤ t.reqCons ∧
        (t.front = .idle → t.reqCons = t.reqProd) := by
  refine exists_end_view _ (fun t : State => (t.pushed, t.pc, t.onWq, t.evt, t.irq))
    (v := (1, .asleep, true, false, .idle)) (by decide) fun t hrun hview => ?_
  simp only [Prod.mk.injEq] at hview
  obtain ⟨hpushed, hpc, hwq, hevt, hirq⟩ := hview
  refine ⟨hpushed, no_stranded_request (by decide) hrun ⟨hpc, hwq⟩ ?_⟩
  rintro (hset | hbusy)
  · rw [hevt] at hset
    cases hset
  · exact hbusy hirq

end PdmaXen.Dom0.Notify
