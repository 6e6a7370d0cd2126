import Mathlib.Data.List.Nodup
import PdmaXen.NetDom0.Backend

/-!
# Ring accounting

Every consumed request is in exactly one place: answered, on a queue, in the
hands of a handler or a thread, or given up without an answer. The accounting of
a front end holds exactly in the runs that give none of its requests up.
-/

namespace PdmaXen.NetDom0
set_option autoImplicit false
open Machine

/-! ## Where requests are -/

def IrqPc.held : IrqPc → List Req
  | .serve r _ => [r]
  | _ => []

def ReqPc.held : ReqPc → List (Dom × Req)
  | .writeResp d r _ | .readData d r | .respond d r => [(d, r)]
  | .wait | .remoteOp | .dead => []

def ConPc.held : ConPc → List (Dom × Req)
  | .writeResp d r _ | .waitSer d r | .send d r | .submit d r | .recv d r | .recvmsg d r _
  | .waitResp d r => [(d, r)]
  | .wait | .dead => []

def Task.request : Task → Option (Dom × Req)
  | .native d r => some (d, r)
  | .remote => none

def requestsOf (d : Dom) (l : List (Dom × Req)) : List Req :=
  l.filterMap fun t => if t.1 = d then some t.2 else none

namespace Backend

def queues (s : Backend) : List (Dom × Req) :=
  s.nativeQueue.filterMap Task.request ++ s.remoteQueue

def queued (s : Backend) (d : Dom) : List Req := requestsOf d s.queues

def processing (s : Backend) (d : Dom) : List Req :=
  (s.chrif d).irq.held ++ requestsOf d (s.reqThrd.held ++ s.conThrd.held)

end Backend

structure Accounted (s : Backend) (d : Dom) : Prop where
  count : (s.chrif d).reqCons - (s.chrif d).rspProdPvt
    = (s.queued d).length + (s.processing d).length
  once : (s.chrif d).responses.Nodup
  pushed : (s.chrif d).rspProdPvt = (s.chrif d).responses.length
  consumed : ∀ r ∈ (s.chrif d).responses, r < (s.chrif d).reqCons
  drained : s.queued d = [] → s.processing d = [] →
    ∀ r, r < (s.chrif d).reqCons → r ∈ (s.chrif d).responses

/-- The request in the handler's hands will be answered or queued. -/
def Chrif.answers (cfg : Config) (c : Chrif) : Prop :=
  match c.irq with
  | .serve r _ => c.operation r ≠ .map ∧ (c.operation r = .ioctl → cfg.usable)
  | _ => True

def ReqPc.answers (cfg : Config) (d : Dom) (s : Backend) : ReqPc → Prop
  | .writeResp d' _ stage => d' = d → (s.chrif d').passes cfg stage
  | .readData d' _ => d' = d → cfg.passesRead
  | .wait | .respond _ _ | .remoteOp | .dead => True

def ConPc.answers (cfg : Config) (d : Dom) (s : Backend) : ConPc → Prop
  | .writeResp d' _ stage => d' = d → (s.chrif d').passes cfg stage
  | .recv d' _ => d' = d → s.submitQueue ≠ []
  | .waitResp d' _ => d' = d → s.recvServerResp = 0
  | .wait | .waitSer _ _ | .send _ _ | .submit _ _ | .recvmsg _ _ _ | .dead => True

/-- The step gives up no request of `d`: it serves no MAP, comes through without a
fault, `memset` of unmapped pages among them, and ends no round of a client's WRITE. -/
def Answers (cfg : Config) (d : Dom) (s : Backend) : Label → Prop
  | .put _ _ => True
  | .irq d' _ => d' = d → (s.chrif d').answers cfg
  | .reqthrd => cfg.devOn → s.reqThrd.answers cfg d s
  | .conthrd _ => ¬ cfg.devOn → s.conThrd.answers cfg d s

/-! ## The tally of a request -/

/-- In how many places of the queues and threads a request is. -/
def Backend.carried (s : Backend) (t : Dom × Req) : Nat :=
  s.queues.count t + s.reqThrd.held.count t + s.conThrd.held.count t

def Chrif.settled (c : Chrif) (r : Req) : Nat := c.responses.count r + c.unanswered.count r

def Chrif.owed (c : Chrif) (r : Req) : Nat := if r < c.reqCons then 1 else 0

def Chrif.tally (c : Chrif) (r : Req) : Nat := c.settled r + c.irq.held.count r

def Backend.tally (s : Backend) (d : Dom) (r : Req) : Nat :=
  (s.chrif d).tally r + s.carried (d, r)

namespace Chrif
variable (c : Chrif) (r r' : Req) (pc : IrqPc)

@[simp] theorem settled_setIrq : (c.setIrq pc).settled r = c.settled r := rfl
@[simp] theorem owed_setIrq : (c.setIrq pc).owed r = c.owed r := rfl
@[simp] theorem irq_setIrq : (c.setIrq pc).irq = pc := rfl
@[simp] theorem owed_makeResponse : (c.makeResponse r').owed r = c.owed r := rfl
@[simp] theorem owed_drop : (c.drop r').owed r = c.owed r := rfl
@[simp] theorem irq_makeResponse : (c.makeResponse r').irq = c.irq := rfl
@[simp] theorem irq_drop : (c.drop r').irq = c.irq := rfl
@[simp] theorem settled_xenChrbkMap (n : Nat) : (c.xenChrbkMap n).settled r = c.settled r := rfl
@[simp] theorem owed_xenChrbkMap (n : Nat) : (c.xenChrbkMap n).owed r = c.owed r := rfl

@[simp] theorem settled_makeResponse :
    (c.makeResponse r').settled r = c.settled r + [r'].count r := by
  simp only [settled, makeResponse, List.count_append]
  omega

@[simp] theorem settled_drop : (c.drop r').settled r = c.settled r + [r'].count r := by
  simp only [settled, drop, List.count_append]
  omega

theorem owed_consume :
    ({ c with reqCons := c.reqCons + 1, irq := pc } : Chrif).owed r
      = c.owed r + [c.reqCons].count r := by
  have hlt : ∀ r n : Nat, (if r < n + 1 then 1 else 0)
      = (if r < n then 1 else 0) + (if n = r then 1 else 0) := by
    intro r n
    split_ifs <;> omega
  simp only [owed, List.count_singleton, beq_iff_eq]
  exact hlt r c.reqCons

/-- The handler moves a request it consumes into its hands, and from there to a
queue, to the answered or to the unanswered ones. -/
theorem tally_irqStep (cfg : Config) (env : IrqEnv) :
    (c.irqStep cfg env).tally r + c.pushes.toList.count r + c.owed r
      = c.tally r + (c.irqStep cfg env).owed r := by
  cases hpc : c.irq with
  | idle => simp [irqStep, hpc, tally, IrqPc.held, pushes]
  | fetch => simp [irqStep, hpc, tally, IrqPc.held, pushes]
  | scan rp =>
    simp only [irqStep, hpc]
    split
    · simp [tally, IrqPc.held, hpc, pushes]
    · split
      · simp [tally, IrqPc.held, hpc, pushes]
      · split
        · simp [tally, IrqPc.held, hpc, pushes]
        · split
          · simp [tally, IrqPc.held, hpc, pushes]
          · rw [owed_consume]
            simp only [tally, settled, IrqPc.held, hpc, pushes, Option.toList_none, List.count_nil]
            omega
  | serve r' rp =>
    cases hop : c.operation r' with
    | write =>
      simp only [irqStep, hpc, hop, tally, IrqPc.held, pushes, settled_setIrq, irq_setIrq,
        owed_setIrq, if_true, Option.toList_some, List.count_nil]
      omega
    | ioctl =>
      simp only [irqStep, hpc, hop]
      split <;> simp [tally, IrqPc.held, hpc, hop, pushes]
    | map => simp [irqStep, hpc, hop, tally, IrqPc.held, pushes]
    | unknown => simp [irqStep, hpc, hop, tally, IrqPc.held, pushes]
  | finalCheck =>
    simp only [irqStep, hpc]
    split <;> simp [tally, IrqPc.held, hpc, pushes]
  | dead => simp [irqStep, hpc, tally, IrqPc.held, pushes]

end Chrif

namespace Backend
variable (s : Backend) (d : Dom) (r : Req)

theorem count_pair (d : Dom) (r r' : Req) : [(d, r')].count (d, r) = [r'].count r := by
  simp [List.count_singleton]

theorem count_pair_of_ne {d d' : Dom} (h : d ≠ d') (r r' : Req) :
    [(d', r')].count (d, r) = 0 := by
  simp [h.symm]

theorem count_cons_eq {α : Type} [BEq α] (a b : α) (l : List α) :
    (b :: l).count a = [b].count a + l.count a := by
  rw [List.count_cons, List.count_singleton, Nat.add_comm]

theorem tally_lose (d' : Dom) (r' : Req) :
    ((s.lose d' r').chrif d).tally r = (s.chrif d).tally r + [(d', r')].count (d, r) := by
  by_cases h : d = d'
  · subst h
    simp only [lose, setChrif_self, Chrif.tally, Chrif.settled_drop, Chrif.irq_drop, count_pair]
    omega
  · simp [lose, h, count_pair_of_ne h]

theorem tally_respond (d' : Dom) (r' : Req) :
    ((s.respond d' r').chrif d).tally r = (s.chrif d).tally r + [(d', r')].count (d, r) := by
  by_cases h : d = d'
  · subst h
    simp only [respond, setChrif_self, Chrif.tally, Chrif.settled_makeResponse,
      Chrif.irq_makeResponse, count_pair]
    omega
  · simp [respond, h, count_pair_of_ne h]

theorem owed_lose (d' : Dom) (r' : Req) : ((s.lose d' r').chrif d).owed r = (s.chrif d).owed r := by
  by_cases h : d = d'
  · subst h
    simp [lose]
  · simp [lose, h]

theorem owed_respond (d' : Dom) (r' : Req) :
    ((s.respond d' r').chrif d).owed r = (s.chrif d).owed r := by
  by_cases h : d = d'
  · subst h
    simp [respond]
  · simp [respond, h]

theorem carried_pushTask (cfg : Config) (d' : Dom) (r' : Req) (t : Dom × Req) :
    (s.pushTask cfg d' r').carried t = s.carried t + [(d', r')].count t := by
  unfold pushTask
  split <;> simp only [carried, queues, List.filterMap_append, List.filterMap_cons,
    List.filterMap_nil, Task.request, List.count_append] <;> omega

theorem tally_irqStep (cfg : Config) (d' : Dom) (env : IrqEnv) :
    (s.irqStep cfg d' env).tally d r + (s.chrif d).owed r
      = s.tally d r + ((s.irqStep cfg d' env).chrif d).owed r := by
  have hchrif := Chrif.tally_irqStep (s.chrif d') r cfg env
  have hcarried : (s.irqStep cfg d' env).carried (d, r)
      = s.carried (d, r) + ((s.chrif d').pushes.toList.map (d', ·)).count (d, r) := by
    unfold irqStep
    cases (s.chrif d').pushes with
    | none => rfl
    | some r' => exact carried_pushTask _ cfg d' r' (d, r)
  rw [tally, tally, hcarried, chrif_irqStep]
  by_cases h : d = d'
  · subst h
    have hcount : ((s.chrif d).pushes.toList.map (d, ·)).count (d, r)
        = (s.chrif d).pushes.toList.count r := by
      cases (s.chrif d).pushes with
      | none => rfl
      | some r' => exact count_pair d r r'
    rw [setChrif_self, hcount]
    omega
  · have hcount : ((s.chrif d').pushes.toList.map (d', ·)).count (d, r) = 0 := by
      cases (s.chrif d').pushes with
      | none => rfl
      | some r' => exact count_pair_of_ne h r r'
    rw [setChrif_of_ne s _ h, hcount]
    omega

end Backend

/-! ## What the threads do to requests -/

/-- A step of a thread passes its requests on, answers one, or gives one up; `A d`
says that it gives up none of front end `d`. -/
inductive ThreadMove (A : Dom → Prop) (s s' : Backend) : Prop where
  | pass (rings : ∀ d, ∃ n, s'.chrif d = { s.chrif d with compWaitser := n })
      (carried : ∀ t, s'.carried t = s.carried t) (answers : ∀ d, A d)
  | answer (d : Dom) (r : Req) (rings : s'.chrif = (s.respond d r).chrif)
      (carried : ∀ t, s'.carried t + [(d, r)].count t = s.carried t) (answers : ∀ d', A d')
  | giveUp (d : Dom) (r : Req) (rings : s'.chrif = (s.lose d r).chrif)
      (carried : ∀ t, s'.carried t + [(d, r)].count t = s.carried t)
      (answers : ∀ d', A d' ↔ d ≠ d')

section
variable {s s' : Backend} {A : Dom → Prop}

theorem carried_reqDone {w : Dom × Req} (hq : s'.queues = s.queues) (hcon : s'.conThrd = s.conThrd)
    (hheld : s.reqThrd.held = [w]) (hnil : s'.reqThrd.held = []) (t : Dom × Req) :
    s'.carried t + [w].count t = s.carried t := by
  simp only [Backend.carried, hq, hcon, hheld, hnil, List.count_nil]
  omega

theorem carried_conDone {w : Dom × Req} (hq : s'.queues = s.queues) (hreq : s'.reqThrd = s.reqThrd)
    (hheld : s.conThrd.held = [w]) (hnil : s'.conThrd.held = []) (t : Dom × Req) :
    s'.carried t + [w].count t = s.carried t := by
  simp only [Backend.carried, hq, hreq, hheld, hnil, List.count_nil]
  omega

theorem rings_refl (s : Backend) (d : Dom) : ∃ n, s.chrif d = { s.chrif d with compWaitser := n } :=
  ⟨_, rfl⟩

theorem rings_setWaitser (s : Backend) (d d' : Dom) (n : Nat) :
    ∃ m, (s.setChrif d' { s.chrif d' with compWaitser := n }).chrif d
      = { s.chrif d with compWaitser := m } := by
  by_cases h : d = d'
  · subst h
    exact ⟨n, s.setChrif_self d _⟩
  · exact ⟨_, s.setChrif_of_ne _ h⟩

theorem reqStep_move (cfg : Config) (s : Backend) :
    ThreadMove (fun d => cfg.devOn → s.reqThrd.answers cfg d s) s (s.reqStep cfg) := by
  unfold Backend.reqStep
  cases cfg.devOn with
  | false => exact .pass (rings_refl s) (fun _ => rfl) fun _ h => absurd h Bool.false_ne_true
  | true =>
    simp only [Bool.not_true, Bool.false_eq_true, if_false]
    cases hpc : s.reqThrd with
    | wait =>
      cases hq : s.nativeQueue with
      | nil => exact .pass (rings_refl s) (fun _ => rfl) fun _ _ => trivial
      | cons task rest =>
        cases task with
        | native d r =>
          refine .pass (rings_refl s) (fun t => ?_) fun _ _ => trivial
          have hcons := Backend.count_cons_eq t (d, r) (rest.filterMap Task.request ++ s.remoteQueue)
          simp only [Backend.carried, Backend.queues, hpc, hq, List.filterMap_cons, Task.request,
            ReqPc.held, List.count_nil, List.cons_append]
          omega
        | remote =>
          refine .pass (rings_refl s) (fun t => ?_) fun _ _ => trivial
          simp [Backend.carried, Backend.queues, hpc, hq, Task.request, ReqPc.held,
            List.filterMap_cons]
    | writeResp d r stage =>
      dsimp only
      cases hpass : (s.chrif d).passes cfg stage with
      | false =>
        simp only [Bool.not_false, if_true]
        exact .giveUp d r rfl (carried_reqDone rfl rfl (by rw [hpc]; rfl) rfl)
          (by simp [ReqPc.answers, hpass])
      | true =>
        simp only [Bool.not_true, Bool.false_eq_true, if_false]
        refine .pass (rings_refl s) (fun t => ?_) (by simp [ReqPc.answers, hpass])
        cases stage <;> simp [Backend.carried, Backend.queues, hpc, ReqPc.held, Stage.next]
    | readData d r =>
      dsimp only
      cases hpass : cfg.passesRead with
      | false =>
        simp only [Bool.not_false, if_true]
        exact .giveUp d r rfl (carried_reqDone rfl rfl (by rw [hpc]; rfl) rfl)
          (by simp [ReqPc.answers, hpass])
      | true =>
        simp only [Bool.not_true, Bool.false_eq_true, if_false]
        refine .pass (rings_refl s) (fun t => ?_) (by simp [ReqPc.answers, hpass])
        simp [Backend.carried, Backend.queues, hpc, ReqPc.held]
    | respond d r =>
      dsimp only
      exact .answer d r rfl (carried_reqDone rfl rfl (by rw [hpc]; rfl) rfl) fun _ _ => trivial
    | remoteOp =>
      dsimp only
      split
      · refine .pass (rings_refl s) (fun t => ?_) fun _ _ => trivial
        simp [Backend.carried, Backend.queues, hpc, ReqPc.held]
      · refine .pass (rings_refl s) (fun t => ?_) fun _ _ => trivial
        simp [Backend.carried, Backend.queues, hpc, ReqPc.held]
    | dead => exact .pass (rings_refl s) (fun _ => rfl) fun _ _ => trivial

theorem conStep_move (cfg : Config) (s : Backend) (datagram : Bool) :
    ThreadMove (fun d => ¬ cfg.devOn → s.conThrd.answers cfg d s) s (s.conStep cfg datagram) := by
  unfold Backend.conStep
  cases cfg.devOn with
  | true =>
    refine .pass (fun d => ?_) (fun t => ?_) fun d h => absurd rfl h
    · simp only [if_true]
      split <;> exact rings_refl s d
    · simp only [if_true]
      split <;> simp [Backend.carried, Backend.queues, Task.request, List.filterMap_cons]
  | false =>
    simp only [Bool.false_eq_true, if_false]
    cases hpc : s.conThrd with
    | wait =>
      cases hq : s.remoteQueue with
      | nil => exact .pass (rings_refl s) (fun _ => rfl) fun _ _ => trivial
      | cons w rest =>
        obtain ⟨d, r⟩ := w
        refine .pass (rings_refl s) (fun t => ?_) fun _ _ => trivial
        have hcons := Backend.count_cons_eq t (d, r) rest
        simp only [Backend.carried, Backend.queues, hpc, hq, ConPc.held, List.count_append,
          List.count_nil]
        omega
    | writeResp d r stage =>
      dsimp only
      cases hpass : (s.chrif d).passes cfg stage with
      | false =>
        simp only [Bool.not_false, if_true]
        exact .giveUp d r rfl (carried_conDone rfl rfl (by rw [hpc]; rfl) rfl)
          (by simp [ConPc.answers, hpass])
      | true =>
        simp only [Bool.not_true, Bool.false_eq_true, if_false]
        refine .pass (rings_refl s) (fun t => ?_) (by simp [ConPc.answers, hpass])
        cases stage <;> simp [Backend.carried, Backend.queues, hpc, ConPc.held, Stage.next]
    | waitSer d r =>
      dsimp only
      split
      · exact .pass (rings_refl s) (fun _ => rfl) fun _ _ => trivial
      · refine .pass (fun d' => rings_setWaitser s d' d _) (fun t => ?_) fun _ _ => trivial
        simp [Backend.carried, Backend.queues, Backend.setChrif, hpc, ConPc.held]
    | send d r | submit d r =>
      refine .pass (rings_refl s) (fun t => ?_) fun _ _ => trivial
      simp [Backend.carried, Backend.queues, hpc, ConPc.held]
    | recv d r =>
      cases hq : s.submitQueue with
      | nil =>
        exact .giveUp d r rfl (carried_conDone rfl rfl (by rw [hpc]; rfl) rfl)
          (by simp [ConPc.answers, hq])
      | cons w rest =>
        refine .pass (rings_refl s) (fun t => ?_) (by simp [ConPc.answers, hq])
        simp [Backend.carried, Backend.queues, hpc, ConPc.held]
    | recvmsg d r d' =>
      dsimp only
      split
      · refine .pass (fun e => rings_setWaitser s e d' _) (fun t => ?_) fun _ _ => trivial
        simp [Backend.carried, Backend.queues, Backend.setChrif, hpc, ConPc.held]
      · exact .pass (rings_refl s) (fun _ => rfl) fun _ _ => trivial
    | waitResp d r =>
      dsimp only
      split
      · rename_i hzero
        exact .pass (rings_refl s) (fun _ => rfl) (by simp [ConPc.answers, hzero])
      · rename_i hbusy
        exact .giveUp d r rfl (carried_conDone rfl rfl (by rw [hpc]; rfl) rfl)
          (by simp [ConPc.answers, hbusy])
    | dead => exact .pass (rings_refl s) (fun _ => rfl) fun _ _ => trivial

theorem ThreadMove.tally (h : ThreadMove A s s') (d : Dom) (r : Req) :
    s'.tally d r + (s.chrif d).owed r = s.tally d r + (s'.chrif d).owed r := by
  cases h with
  | pass rings carried _ =>
    obtain ⟨n, hn⟩ := rings d
    rw [Backend.tally, Backend.tally, carried, hn]
    rfl
  | answer d' r' rings carried _ =>
    have hdone := s.tally_respond d r d' r'
    have howed := s.owed_respond d r d' r'
    have hcarried := carried (d, r)
    rw [Backend.tally, Backend.tally, rings]
    omega
  | giveUp d' r' rings carried _ =>
    have hlost := s.tally_lose d r d' r'
    have howed := s.owed_lose d r d' r'
    have hcarried := carried (d, r)
    rw [Backend.tally, Backend.tally, rings]
    omega

end

theorem tally_step {cfg : Config} {s t : Backend} {l : Label} (h : step cfg s l = some t)
    (d : Dom) (r : Req) :
    t.tally d r + (s.chrif d).owed r = s.tally d r + (t.chrif d).owed r := by
  cases l with
  | put d' op =>
    cases h
    by_cases hd : d = d'
    · subst hd
      simp only [Backend.tally, Backend.put, Backend.setChrif_self]
      rfl
    · simp only [Backend.tally, Backend.put, Backend.setChrif_of_ne s _ hd]
      rfl
  | irq d' env =>
    cases h
    exact s.tally_irqStep d r cfg d' env
  | reqthrd =>
    cases h
    exact (reqStep_move cfg s).tally d r
  | conthrd datagram =>
    cases h
    exact (conStep_move cfg s datagram).tally d r

/-! ## Requests given up -/

theorem unanswered_irqStep (cfg : Config) (c : Chrif) (env : IrqEnv) :
    (c.irqStep cfg env).unanswered = [] ↔ c.unanswered = [] ∧ c.answers cfg := by
  cases hpc : c.irq with
  | serve r rp =>
    simp only [Chrif.irqStep, Chrif.answers, hpc]
    cases hop : c.operation r with
    | ioctl =>
      simp only
      split <;> simp [Chrif.makeResponse, Chrif.drop, Chrif.setIrq, *]
    | _ => simp [Chrif.makeResponse, Chrif.drop, Chrif.setIrq]
  | scan rp =>
    simp only [Chrif.irqStep, Chrif.answers, hpc]
    split_ifs <;> simp [Chrif.setIrq]
  | _ => simp [Chrif.irqStep, Chrif.answers, hpc, Chrif.setIrq]

theorem unanswered_lose (s : Backend) (d d' : Dom) (r' : Req) :
    ((s.lose d' r').chrif d).unanswered = [] ↔ (s.chrif d).unanswered = [] ∧ d' ≠ d := by
  by_cases h : d = d'
  · subst h
    simp [Backend.lose, Chrif.drop]
  · simp [Backend.lose, h, Ne.symm h]

theorem unanswered_respond (s : Backend) (d d' : Dom) (r' : Req) :
    ((s.respond d' r').chrif d).unanswered = (s.chrif d).unanswered := by
  by_cases h : d = d'
  · subst h
    simp [Backend.respond, Chrif.makeResponse]
  · simp [Backend.respond, h]

theorem ThreadMove.unanswered {A : Dom → Prop} {s s' : Backend} (h : ThreadMove A s s') (d : Dom) :
    (s'.chrif d).unanswered = [] ↔ (s.chrif d).unanswered = [] ∧ A d := by
  cases h with
  | pass rings _ answers =>
    obtain ⟨n, hn⟩ := rings d
    simp [hn, answers d]
  | answer d' r' rings _ answers =>
    rw [rings, unanswered_respond]
    simp [answers d]
  | giveUp d' r' rings _ answers =>
    rw [rings, unanswered_lose, answers]

theorem unanswered_step {cfg : Config} {s t : Backend} {l : Label} (h : step cfg s l = some t)
    (d : Dom) :
    (t.chrif d).unanswered = [] ↔ (s.chrif d).unanswered = [] ∧ Answers cfg d s l := by
  cases l with
  | put d' op =>
    cases h
    by_cases hd : d = d'
    · subst hd
      simp [Backend.put, Answers]
    · simp [Backend.put, Answers, hd]
  | irq d' env =>
    cases h
    rw [Backend.chrif_irqStep]
    by_cases hd : d = d'
    · subst hd
      rw [Backend.setChrif_self, unanswered_irqStep]
      simp [Answers]
    · rw [Backend.setChrif_of_ne s _ hd]
      simp [Answers, Ne.symm hd]
  | reqthrd =>
    cases h
    exact (reqStep_move cfg s).unanswered d
  | conthrd datagram =>
    cases h
    exact (conStep_move cfg s datagram).unanswered d

/-! ## Accounting -/

def Chrif.Pushed (c : Chrif) : Prop := c.rspProdPvt = c.responses.length

theorem pushed_irqStep (cfg : Config) {c : Chrif} (hc : c.Pushed) (env : IrqEnv) :
    (c.irqStep cfg env).Pushed := by
  unfold Chrif.Pushed at *
  cases hpc : c.irq with
  | serve r rp =>
    simp only [Chrif.irqStep, hpc]
    cases c.operation r with
    | ioctl =>
      simp only
      split <;> simp [Chrif.makeResponse, Chrif.drop, Chrif.setIrq, hc]
    | _ => simp [Chrif.makeResponse, Chrif.drop, Chrif.xenChrbkMap, Chrif.setIrq, hc]
  | scan rp =>
    simp only [Chrif.irqStep, hpc]
    split_ifs <;> simp [Chrif.setIrq, hc]
  | _ => simp [Chrif.irqStep, hpc, Chrif.setIrq, hc]

def Backend.Pushed (s : Backend) : Prop := ∀ d, (s.chrif d).Pushed

theorem pushed_setChrif {s : Backend} (hs : s.Pushed) (d : Dom) {c : Chrif} (hc : c.Pushed) :
    (s.setChrif d c).Pushed := by
  intro d'
  by_cases h : d' = d
  · subst h
    simpa using hc
  · simpa [h] using hs d'

theorem pushed_lose {s : Backend} (hs : s.Pushed) (d : Dom) (r : Req) : (s.lose d r).Pushed :=
  pushed_setChrif hs d (hs d)

theorem pushed_respond {s : Backend} (hs : s.Pushed) (d : Dom) (r : Req) :
    (s.respond d r).Pushed := by
  refine pushed_setChrif hs d ?_
  have hd := hs d
  simp only [Chrif.Pushed] at hd
  simp [Chrif.Pushed, Chrif.makeResponse, hd]

theorem ThreadMove.pushed {A : Dom → Prop} {s s' : Backend} (h : ThreadMove A s s')
    (hs : s.Pushed) : s'.Pushed := by
  intro d
  cases h with
  | pass rings _ _ =>
    obtain ⟨n, hn⟩ := rings d
    rw [hn]
    exact hs d
  | answer d' r' rings _ _ =>
    rw [rings]
    exact pushed_respond hs d' r' d
  | giveUp d' r' rings _ _ =>
    rw [rings]
    exact pushed_lose hs d' r' d

theorem pushed_step {cfg : Config} {s t : Backend} {l : Label} (hs : s.Pushed)
    (h : step cfg s l = some t) : t.Pushed := by
  cases l with
  | put d' op =>
    cases h
    exact pushed_setChrif hs d' (hs d')
  | irq d' env =>
    cases h
    intro d
    rw [Backend.chrif_irqStep]
    exact pushed_setChrif hs d' (pushed_irqStep cfg (hs d') env) d
  | reqthrd =>
    cases h
    exact (reqStep_move cfg s).pushed hs
  | conthrd datagram =>
    cases h
    exact (conStep_move cfg s datagram).pushed hs

theorem count_requestsOf (d : Dom) (r : Req) (l : List (Dom × Req)) :
    (requestsOf d l).count r = l.count (d, r) := by
  induction l with
  | nil => rfl
  | cons t l ih =>
    obtain ⟨d', r'⟩ := t
    by_cases h : d' = d
    · subst h
      have hcons : requestsOf d' ((d', r') :: l) = r' :: requestsOf d' l := by simp [requestsOf]
      rw [hcons, Backend.count_cons_eq r r', ih, Backend.count_cons_eq (d', r) (d', r'),
        Backend.count_pair]
    · have hcons : requestsOf d ((d', r') :: l) = requestsOf d l := by simp [requestsOf, h]
      rw [hcons, ih, Backend.count_cons_eq (d, r) (d', r'), Backend.count_pair_of_ne (Ne.symm h), Nat.zero_add]

theorem count_range (r n : Nat) : (List.range n).count r = if r < n then 1 else 0 := by
  split
  case isTrue h => exact List.count_eq_one_of_mem List.nodup_range (List.mem_range.mpr h)
  case isFalse h => exact List.count_eq_zero_of_not_mem fun hmem => h (List.mem_range.mp hmem)

/-- Every consumed request is in exactly one place. -/
theorem consumed_perm {s : Backend} {d : Dom}
    (h : ∀ r, s.tally d r = (s.chrif d).owed r) :
    (List.range (s.chrif d).reqCons).Perm ((s.chrif d).responses ++ (s.chrif d).unanswered
      ++ s.queued d ++ s.processing d) := by
  rw [List.perm_iff_count]
  intro r
  have hr := h r
  simp only [Backend.tally, Chrif.tally, Chrif.settled, Chrif.owed, Backend.carried] at hr
  simp only [count_range, ← hr, List.count_append, Backend.queued, Backend.processing,
    count_requestsOf]
  omega

theorem accounted_iff {s : Backend} {d : Dom} (htally : ∀ r, s.tally d r = (s.chrif d).owed r)
    (hpushed : (s.chrif d).Pushed) : Accounted s d ↔ (s.chrif d).unanswered = [] := by
  have hperm := consumed_perm htally
  have hlen := hperm.length_eq
  simp only [List.length_range, List.length_append] at hlen
  unfold Chrif.Pushed at hpushed
  constructor
  · intro h
    have hcount := h.count
    apply List.length_eq_zero_iff.mp
    omega
  · intro hnone
    rw [hnone, List.append_nil] at hperm
    rw [hnone, List.length_nil] at hlen
    have hnodup := hperm.nodup_iff.mp List.nodup_range
    refine ⟨by omega, ?_, hpushed, ?_, ?_⟩
    · exact (List.nodup_append.mp (List.nodup_append.mp hnodup).1).1
    · intro r hr
      apply List.mem_range.mp
      apply hperm.mem_iff.mpr
      simp [hr]
    · intro hq hp r hr
      rw [hq, hp, List.append_nil, List.append_nil] at hperm
      exact hperm.mem_iff.mp (List.mem_range.mpr hr)

/-- A run keeps the accounting of a front end exactly when no step of it gives up
one of its requests. -/
theorem ring_accounting (cfg : Config) (mapped : Dom → Nat) (d : Dom) (ls : List Label) :
    ∃ t, exec (step cfg) (.start mapped) ls = some t ∧
      (Accounted t d ↔ Along (step cfg) (Answers cfg d) (.start mapped) ls) := by
  obtain ⟨t, hrun⟩ := exec_total (step_total cfg) (.start mapped) ls
  have htally : ∀ r, t.tally d r = (t.chrif d).owed r := by
    intro r
    refine invariant (I := fun s => s.tally d r = (s.chrif d).owed r) ?_ ?_ hrun
    · intro s l s' hs hstep
      have hmove := tally_step hstep d r
      omega
    · simp [Backend.start, connected, Backend.tally, Backend.carried, Backend.queues, Chrif.tally,
        Chrif.settled, Chrif.owed, IrqPc.held, ReqPc.held, ConPc.held]
  have hinit : Backend.Pushed (.start mapped) := fun _ => rfl
  have hpushed : t.Pushed := invariant pushed_step hinit hrun
  refine ⟨t, hrun, ?_⟩
  rw [accounted_iff htally (hpushed d),
    along_iff (P := fun s => (s.chrif d).unanswered = []) (fun h => unanswered_step h d) hrun]
  simp [Backend.start, connected]

def handle (n : Nat) : List Label := List.replicate n (.irq 0 {})

/-- A server gives up a MAP, and a WRITE before the first MAP; a client gives up a WRITE:
nothing is queued or being processed, yet a consumed request has no response. -/
theorem requests_unanswered :
    (∃ t, exec (step (serverConfig ⟨4096, 4096⟩ 32)) (.start fun _ => 0)
        (.put 0 .map :: handle 4) = some t ∧ ¬ Accounted t 0) ∧
    (∃ t, exec (step (serverConfig ⟨4096, 4096⟩ 32)) (.start fun _ => 0)
        (.put 0 .write :: handle 4 ++ List.replicate 6 .reqthrd) = some t ∧ ¬ Accounted t 0) ∧
    ∃ t, exec (step (clientConfig ⟨0, 0⟩ 32 false)) (.start fun _ => shareMemoryPn)
        (.put 0 .write :: handle 4 ++ [.conthrd false, .conthrd false]) = some t ∧
      ¬ Accounted t 0 := by
  have hbad : ∀ t : Backend, ((t.chrif 0).reqCons - (t.chrif 0).rspProdPvt,
      (t.queued 0).length + (t.processing 0).length) = (1, 0) → ¬ Accounted t 0 := by
    intro t hview hacc
    have hcount := hacc.count
    simp only [Prod.mk.injEq] at hview
    omega
  refine ⟨?_, ?_, ?_⟩
  · exact exists_end_view _ (v := (1, 0)) _ (by decide) fun t _ hview => hbad t hview
  · exact exists_end_view _ (v := (1, 0)) _ (by decide) fun t _ hview => hbad t hview
  · exact exists_end_view _ (v := (1, 0)) _ (by decide) fun t _ hview => hbad t hview

end PdmaXen.NetDom0
