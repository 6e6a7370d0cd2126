import Mathlib.Order.Nat
import PdmaXen.NetDom0.Ring

/-!
# What a step does to the ring memory

One inversion of a step: who makes it, which requests change hands, which slot and
which buffer it writes. The invariants of the ring are read off it.
-/

namespace PdmaXen.NetDom0.Ring
set_option autoImplicit false

def HandlerPc.held : HandlerPc → List Req
  | .serve t _ | .stat t _ => [t.req]
  | .make m _ _ => [m.req]
  | .idle | .fetch | .scan _ _ | .lower _ _ _ | .finalCheck => []

def ServicePc.held : ServicePc → List Req
  | .account t | .lenReg t | .transfer t | .waitSer t | .send t | .dead t => [t.req]
  | .make m => [m.req]
  | .wait => []

def HandlerPc.making : HandlerPc → Option Making
  | .make m _ _ => some m
  | _ => none

def ServicePc.making : ServicePc → Option Making
  | .make m => some m
  | _ => none

/-- Who may be in `xen_make_response`. -/
inductive Party where
  | handler | service
deriving DecidableEq

def Party.other : Party → Party
  | .handler => .service
  | .service => .handler

namespace State

def live (s : State) : List Req := s.handler.held ++ (s.queue.map Task.req ++ s.service.held)

def making (s : State) : Party → Option Making
  | .handler => s.handler.making
  | .service => s.service.making

end State

structure Frame (s s' : State) : Prop where
  published : s'.published = s.published := by rfl
  reqCons : s'.reqCons = s.reqCons := by rfl
  rspProdPvt : s'.rspProdPvt = s.rspProdPvt := by rfl
  answers : s'.answers = s.answers := by rfl

/-- What an assignment of `xen_make_response` writes, and from which word. -/
def MakePc.assigns (pc : MakePc) (req resp : Words) : Words :=
  match pc with
  | .id => Function.update resp idWord (req idWord)
  | .operation => Function.update resp respOperationWord (req reqOperationWord)
  | .status => Function.update resp respStatusWord (req reqStatusWord + 1)
  | .push => resp

def Label.party : Label → Option Party
  | .put _ => none
  | .irq _ => some .handler
  | .service _ => some .service

inductive Move (size : Nat) (l : Label) (s s' : State) : Prop where
  | put (w : Words) (room : s.published.length - s.rspProdPvt < size) (eq : s' = s.put size w)
  | consume (resp rp : Nat) (pc : s.handler = .scan resp rp) (fetched : s.reqCons ≠ rp)
      (eq : s' = { s with reqCons := s.reqCons + 1, handler := .serve ⟨s.reqCons, resp⟩ rp })
  /-- Requests go from hand to hand, or are given up. -/
  | pass (frame : Frame s s') (slots : s'.slots = s.slots)
      (live : ∀ r, s'.live.count r ≤ s.live.count r)
      (resps : ∀ b i, i = idWord ∨ i = respOperationWord → s'.resps b i = s.resps b i)
      (making : ∀ c, s'.making c = s.making c ∨
        s.making c = none ∧ ∀ m, s'.making c = some m → m.pc = .id)
  | assign (c : Party) (m : Making) (pc : MakePc) (party : l.party = some c)
      (at_ : s.making c = some m) (next : m.pc.next = some pc) (frame : Frame s s')
      (slots : s'.slots = s.slots) (live : s'.live = s.live)
      (resps : s'.resps = Function.update s.resps m.resp
        (m.pc.assigns (s.slot size m.req) (s.resps m.resp)))
      (self : s'.making c = some { m with pc }) (other : s'.making c.other = s.making c.other)
  | push (c : Party) (m : Making) (party : l.party = some c) (at_ : s.making c = some m)
      (pc : m.pc = .push)
      (live : ∀ r, s'.live.count r + [m.req].count r = s.live.count r)
      (published : s'.published = s.published) (reqCons : s'.reqCons = s.reqCons)
      (resps : s'.resps = s.resps) (slots : s'.slots = (s.pushResponse size m).slots)
      (rspProdPvt : s'.rspProdPvt = s.rspProdPvt + 1)
      (answers : s'.answers = s.answers ++ [(m.req, s.resps m.resp)])
      (self : s'.making c = none) (other : s'.making c.other = s.making c.other)
  | lowerOwn (t : Task) (rp : Nat) (pc : s.handler = .serve t rp)
      (eq : s' = { s.lowerStatus size t.req with handler := .make t.making false rp })
  | lowerAnswered (r : Req) (resp rp : Nat) (party : l.party = some .handler)
      (pc : s.handler = .lower r resp rp)
      (eq : s' = { s.lowerStatus size r with handler := .scan resp rp })

section
variable {size : Nat} {l : Label} {s s' : State}

theorem handler_pass {h : HandlerPc} {n k : Nat} {q : List Task} (hm : s.handler.making = none)
    (hid : ∀ m, h.making = some m → m.pc = .id)
    (live : ∀ r, (h.held ++ q.map Task.req).count r
      ≤ (s.handler.held ++ s.queue.map Task.req).count r) :
    Move size l s { s with mapped := k, handler := h, respNr := n, queue := q } := by
  refine .pass {} rfl (fun r => ?_) (fun _ _ _ => rfl) ?_
  · have := live r
    simp only [State.live, List.count_append] at this ⊢
    omega
  · rintro (_ | _)
    · exact Or.inr ⟨hm, hid⟩
    · exact Or.inl rfl

theorem handler_drop {h : HandlerPc} {n k : Nat} (hm : s.handler.making = none)
    (hnone : h.making = none) (hheld : h.held = []) :
    Move size l s { s with mapped := k, handler := h, respNr := n } := by
  refine handler_pass hm (by simp [hnone]) fun r => ?_
  rw [hheld, List.count_append, List.count_append, List.count_nil]
  omega

theorem service_pass {sv : ServicePc} {x : List Seen} {q : List Task}
    (hm : s.service.making = none) (hid : ∀ m, sv.making = some m → m.pc = .id)
    (live : ∀ r, (q.map Task.req ++ sv.held).count r
      ≤ (s.queue.map Task.req ++ s.service.held).count r) :
    Move size l s { s with queue := q, service := sv, seen := x } := by
  refine .pass {} rfl (fun r => ?_) (fun _ _ _ => rfl) ?_
  · have := live r
    simp only [State.live, List.count_append] at this ⊢
    omega
  · rintro (_ | _)
    · exact Or.inl rfl
    · exact Or.inr ⟨hm, hid⟩

theorem makeStep_assign {m : Making} (h : m.pc ≠ .push) :
    s.makeStep size m
      = s.setResp m.resp (m.pc.assigns (s.slot size m.req) (s.resps m.resp)) := by
  unfold State.makeStep
  cases hpc : m.pc with
  | push => exact absurd hpc h
  | _ => rfl

theorem makeStep_push {m : Making} (h : m.pc = .push) :
    s.makeStep size m = s.pushResponse size m := by
  simp [State.makeStep, h]

theorem next_eq_none {pc : MakePc} : pc.next = none ↔ pc = .push := by
  cases pc <;> simp [MakePc.next]

theorem setStat_apply (s : State) (b : Nat) (stat : Words) {b' i : Nat}
    (hi : i = idWord ∨ i = respOperationWord) : (s.setStat b stat).resps b' i = s.resps b' i := by
  have hout : ¬ (respStatWord ≤ i ∧ i < respStatWord + statWords) := by
    simp only [idWord, respOperationWord, respStatWord, statWords] at hi ⊢
    omega
  by_cases hb : b' = b
  · subst hb
    simp [State.setStat, State.setResp, hout]
  · simp [State.setStat, State.setResp, hb]

theorem irqStep_move (size : Nat) (s : State) (env : IrqEnv) :
    Move size (.irq env) s (s.irqStep size env) := by
  unfold State.irqStep
  cases hpc : s.handler with
  | idle => exact handler_drop (by rw [hpc]; rfl) rfl rfl
  | fetch => exact handler_drop (by rw [hpc]; rfl) rfl rfl
  | scan resp rp =>
    have hm : s.handler.making = none := by rw [hpc]; rfl
    simp only
    split
    · exact handler_drop hm rfl rfl
    · split
      · exact handler_drop hm rfl rfl
      · split
        · exact handler_drop hm rfl rfl
        · split
          · exact handler_drop hm rfl rfl
          · exact .consume resp rp hpc (by assumption) rfl
  | serve t rp =>
    have hm : s.handler.making = none := by rw [hpc]; rfl
    simp only
    cases operationOf (s.slot size t.req reqOperationWord) with
    | write =>
      refine handler_pass hm (by simp [HandlerPc.making]) fun r => ?_
      simp only [hpc, HandlerPc.held, List.map_append, List.map_cons, List.map_nil,
        List.count_append, List.count_nil]
      omega
    | ioctl =>
      refine handler_pass hm (by simp [HandlerPc.making]) fun r => ?_
      rw [hpc]
      rfl
    | map => exact handler_drop hm rfl rfl
    | unknown => exact .lowerOwn t rp hpc rfl
  | stat t rp =>
    refine .pass {} rfl (fun r => ?_) (fun b i hi => ?_) ?_
    · simp [State.live, hpc, HandlerPc.held, Task.making, State.setStat, State.setResp]
    · exact setStat_apply s t.resp env.stat hi
    · rintro (_ | _)
      · refine Or.inr ⟨by rw [State.making, hpc]; rfl, fun m h => ?_⟩
        obtain rfl : t.making = m := Option.some.inj h
        rfl
      · exact Or.inl rfl
  | make m failed rp =>
    have hat : s.making .handler = some m := by rw [State.making, hpc]; rfl
    simp only
    cases hnext : m.pc.next with
    | some pc =>
      have hne : m.pc ≠ .push := fun h => by rw [next_eq_none.mpr h] at hnext; cases hnext
      rw [makeStep_assign hne]
      exact .assign .handler m pc rfl hat hnext {} rfl
        (by simp [State.live, hpc, HandlerPc.held, State.setResp]) rfl rfl rfl
    | none =>
      have hpush := next_eq_none.mp hnext
      rw [makeStep_push hpush]
      refine .push .handler m rfl hat hpush (fun r => ?_) rfl rfl rfl rfl rfl rfl ?_ rfl
      · have hheld : (if failed then HandlerPc.lower m.req m.resp rp
            else HandlerPc.scan m.resp rp).held = [] := by
          split <;> rfl
        have hlive : s.live.count r
            = [m.req].count r + (s.queue.map Task.req ++ s.service.held).count r := by
          rw [State.live, hpc, List.count_append]
          rfl
        rw [hlive, State.live, List.count_append, hheld, List.count_nil, Nat.zero_add, Nat.add_comm]
        rfl
      · cases failed <;> rfl
  | lower r resp rp => exact .lowerAnswered r resp rp rfl hpc rfl
  | finalCheck =>
    have hm : s.handler.making = none := by rw [hpc]; rfl
    simp only
    split
    · exact handler_drop hm rfl rfl
    · exact handler_drop hm rfl rfl

theorem word_eq_some {pc : MakePc} (h : pc ≠ .push) : ∃ i, pc.word = some i := by
  cases pc with
  | push => exact absurd rfl h
  | _ => exact ⟨_, rfl⟩

theorem serviceStep_move (size : Nat) (devOn : Bool) (s : State) (completed : Bool) :
    Move size (.service completed) s (s.serviceStep size devOn completed) := by
  have stay : Move size (.service completed) s s :=
    .pass {} rfl (fun _ => le_rfl) (fun _ _ _ => rfl) fun _ => Or.inl rfl
  unfold State.serviceStep
  cases hpc : s.service with
  | wait =>
    have hm : s.service.making = none := by rw [hpc]; rfl
    cases hq : s.queue with
    | nil => exact stay
    | cons t rest =>
      refine service_pass hm (by simp [ServicePc.making]) fun r => ?_
      simp only [hq, hpc, ServicePc.held, List.map_cons, List.count_append, List.count_cons,
        List.count_nil]
      omega
  | account t =>
    refine service_pass (by rw [hpc]; rfl) (by simp [ServicePc.making]) fun r => ?_
    rw [hpc]
    rfl
  | lenReg t =>
    refine service_pass (by rw [hpc]; rfl) (by simp [ServicePc.making]) fun r => ?_
    rw [hpc]
    rfl
  | transfer t =>
    have hm : s.service.making = none := by rw [hpc]; rfl
    simp only
    split
    · exact service_pass hm (by simp [ServicePc.making]) (by simp [hpc, ServicePc.held])
    · cases devOn with
      | true =>
        refine service_pass hm (fun m h => ?_) (by simp [hpc, ServicePc.held, Task.making])
        obtain rfl : t.making = m := Option.some.inj h
        rfl
      | false => exact service_pass hm (by simp [ServicePc.making]) (by simp [hpc, ServicePc.held])
  | make m =>
    have hat : s.making .service = some m := by rw [State.making, hpc]; rfl
    simp only
    cases hnext : m.pc.next with
    | some pc =>
      have hne : m.pc ≠ .push := fun h => by rw [next_eq_none.mpr h] at hnext; cases hnext
      obtain ⟨i, hi⟩ := word_eq_some hne
      rw [hi, makeStep_assign hne]
      refine .assign .service m pc rfl hat hnext {} rfl ?_ rfl rfl rfl
      simp [State.live, hpc, ServicePc.held, State.setResp, State.see]
    | none =>
      have hpush := next_eq_none.mp hnext
      rw [hpush, MakePc.word, makeStep_push hpush]
      refine .push .service m rfl hat hpush (fun r => ?_) rfl rfl rfl rfl rfl rfl rfl rfl
      simp only [State.live, hpc, ServicePc.held, List.count_append, List.count_nil,
        State.pushResponse, State.setSlot]
      omega
  | waitSer t =>
    have hm : s.service.making = none := by rw [hpc]; rfl
    simp only
    split
    · exact service_pass hm (by simp [ServicePc.making]) (by simp [hpc, ServicePc.held])
    · exact stay
  | send t =>
    refine service_pass (by rw [hpc]; rfl) (by simp [ServicePc.making]) fun r => ?_
    simp only [hpc, ServicePc.held, List.count_append, List.count_nil, State.see]
    omega
  | dead t => exact stay

end

/-! ## Control flow of the handler -/

def HandlerPc.reqProd : HandlerPc → Option Nat
  | .scan _ rp | .serve _ rp | .stat _ rp | .make _ _ rp | .lower _ _ rp => some rp
  | .idle | .fetch | .finalCheck => none

def HandlerPc.lowering : HandlerPc → Option Req
  | .lower r _ _ => some r
  | _ => none

/-- Where the `req_prod` of a handler comes from, and whose status it lowers. -/
structure Flow (s s' : State) : Prop where
  reqProd : ∀ rp, s'.handler.reqProd = some rp →
    s.handler.reqProd = some rp ∨ rp = s.published.length
  lowering : ∀ r, s'.handler.lowering = some r →
    s.handler.lowering = some r ∨ ∃ m, s.handler.making = some m ∧ m.pc = .push ∧ m.req = r

section
variable {size : Nat} {s s' : State}

theorem flow_refl (h : s'.handler = s.handler) : Flow s s' := by
  constructor
  · intro rp hrp
    exact Or.inl (h ▸ hrp)
  · intro r hr
    exact Or.inl (h ▸ hr)

theorem irqStep_flow (size : Nat) (s : State) (env : IrqEnv) : Flow s (s.irqStep size env) := by
  unfold State.irqStep
  cases hpc : s.handler with
  | idle => constructor <;> simp [HandlerPc.reqProd, HandlerPc.lowering]
  | fetch => constructor <;> simp [HandlerPc.reqProd, HandlerPc.lowering]
  | scan resp rp =>
    simp only
    split_ifs <;> constructor <;> simp [HandlerPc.reqProd, HandlerPc.lowering, hpc]
  | serve t rp =>
    simp only
    cases operationOf (s.slot size t.req reqOperationWord) <;>
      constructor <;> simp [HandlerPc.reqProd, HandlerPc.lowering, hpc]
  | stat t rp => constructor <;> simp [HandlerPc.reqProd, HandlerPc.lowering, hpc]
  | make m failed rp =>
    cases hnext : m.pc.next with
    | some pc => constructor <;> simp [HandlerPc.reqProd, HandlerPc.lowering, hpc, hnext]
    | none =>
      have hpush := next_eq_none.mp hnext
      simp only [hnext]
      cases failed <;>
        constructor <;> simp [HandlerPc.reqProd, HandlerPc.lowering, HandlerPc.making, hpc, hpush]
  | lower r resp rp => constructor <;> simp [HandlerPc.reqProd, HandlerPc.lowering, hpc]
  | finalCheck =>
    simp only
    split <;> constructor <;> simp [HandlerPc.reqProd, HandlerPc.lowering]

theorem handler_serviceStep (size : Nat) (devOn : Bool) (s : State) (completed : Bool) :
    (s.serviceStep size devOn completed).handler = s.handler := by
  unfold State.serviceStep
  cases hpc : s.service with
  | wait => cases s.queue <;> rfl
  | make m =>
    obtain ⟨r, b, pc⟩ := m
    cases pc <;> rfl
  | transfer t =>
    simp only
    split <;> rfl
  | waitSer t => cases completed <;> rfl
  | _ => rfl

theorem lowering_of_making {h : HandlerPc} {m : Making} (hm : h.making = some m) :
    h.lowering = none := by
  cases h <;> first | rfl | cases hm

theorem step_move {devOn : Bool} {l : Label} (h : step size devOn s l = some s') :
    Move size l s s' ∧ Flow s s' := by
  cases l with
  | put w =>
    simp only [step] at h
    split at h
    · cases h
      exact ⟨.put w (by assumption) rfl, flow_refl rfl⟩
    · cases h
  | irq env =>
    cases h
    exact ⟨irqStep_move size s env, irqStep_flow size s env⟩
  | service completed =>
    cases h
    exact ⟨serviceStep_move size devOn s completed,
      flow_refl (handler_serviceStep size devOn s completed)⟩

theorem making_req_mem {c : Party} {m : Making} (h : s.making c = some m) : m.req ∈ s.live := by
  cases c with
  | handler =>
    cases hpc : s.handler with
    | make m' failed rp =>
      simp only [State.making, hpc, HandlerPc.making, Option.some.injEq] at h
      simp [State.live, hpc, HandlerPc.held, h]
    | _ => simp [State.making, hpc, HandlerPc.making] at h
  | service =>
    cases hpc : s.service with
    | make m' =>
      simp only [State.making, hpc, ServicePc.making, Option.some.injEq] at h
      simp [State.live, hpc, ServicePc.held, h]
    | _ => simp [State.making, hpc, ServicePc.making] at h

end

end PdmaXen.NetDom0.Ring
