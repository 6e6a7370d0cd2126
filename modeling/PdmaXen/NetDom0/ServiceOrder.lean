import PdmaXen.NetDom0.Server

/-!
# Order and contiguity of the service, and what becomes of the results

One thread takes every task from `native_queue` and only it gives the device
operations, so tasks are served in the order of their pushes and no two are mixed.
The results go to `sendtocli_queue`, which no thread of the module serves.
-/

namespace PdmaXen.NetDom0.Server
set_option autoImplicit false
open Bytes Machine

def ServicePc.task : ServicePc → Option Task
  | .wait => none
  | .native d r _ => some (.native d r)
  | .remote n _ => some (.remote n)
  | .dead t => some t

def Event.taskOp : Event → Option (Task × DevOp)
  | .op t o => some (t, o)
  | .stat _ | .info => none

namespace State

/-- The operations on the device, statistics and info queries left out. -/
def deviceOps (s : State) : List (Task × DevOp) := s.trace.filterMap Event.taskOp

end State

/-- The operations of the tasks, one segment each. -/
def segments (g : List (Task × List DevOp)) : List (Task × DevOp) :=
  g.flatMap fun x => x.2.map fun o => (x.1, o)

/-- Tasks are served one at a time in the order of their pushes, none lost and none
twice, and the operations of each are one segment of the device's trace. -/
structure Ordered (s : State) : Prop where
  fifo : s.pushed = s.begun ++ s.nativeQueue
  one : s.begun = s.finished ++ s.service.task.toList
  contiguous : ∃ g, g.map Prod.fst = s.begun ∧ s.deviceOps = segments g

/-! ## What a step does to the tasks -/

structure Kept (s s' : State) : Prop where
  pushed : s'.pushed = s.pushed := by rfl
  nativeQueue : s'.nativeQueue = s.nativeQueue := by rfl
  begun : s'.begun = s.begun := by rfl
  finished : s'.finished = s.finished := by rfl

inductive Move (s s' : State) : Prop where
  | quiet (kept : Kept s s') (task : s'.service.task = s.service.task)
      (ops : s'.deviceOps = s.deviceOps)
  | push (t : Task) (pushed : s'.pushed = s.pushed ++ [t])
      (nativeQueue : s'.nativeQueue = s.nativeQueue ++ [t]) (begun : s'.begun = s.begun)
      (finished : s'.finished = s.finished) (task : s'.service.task = s.service.task)
      (ops : s'.deviceOps = s.deviceOps)
  | take (t : Task) (idle : s.service.task = none) (pushed : s'.pushed = s.pushed)
      (nativeQueue : s.nativeQueue = t :: s'.nativeQueue) (begun : s'.begun = s.begun ++ [t])
      (finished : s'.finished = s.finished) (task : s'.service.task = some t)
      (ops : s'.deviceOps = s.deviceOps)
  | operate (t : Task) (o : DevOp) (running : s.service.task = some t) (kept : Kept s s')
      (task : s'.service.task = some t) (ops : s'.deviceOps = s.deviceOps ++ [(t, o)])
  | finish (t : Task) (running : s.service.task = some t) (pushed : s'.pushed = s.pushed)
      (nativeQueue : s'.nativeQueue = s.nativeQueue) (begun : s'.begun = s.begun)
      (finished : s'.finished = s.finished ++ [t]) (task : s'.service.task = none)
      (ops : s'.deviceOps = s.deviceOps)

section
variable {s s' : State}

theorem deviceOps_snoc (trace : List Event) (e : Event) :
    (trace ++ [e]).filterMap Event.taskOp = trace.filterMap Event.taskOp ++ e.taskOp.toList := by
  rw [List.filterMap_append]
  cases h : e.taskOp <;> simp [h]

theorem deviceOps_operate (s : State) (t : Task) (o : DevOp) :
    (s.operate t o).deviceOps = s.deviceOps ++ [(t, o)] :=
  deviceOps_snoc s.trace (.op t o)

theorem nativeStep_move (cfg : Config) (env : ServiceEnv) {d : Dom} {r : Req} {pc : NativePc}
    (h : s.service.task = some (.native d r)) : Move s (s.nativeStep cfg env d r pc) := by
  have hop : ∀ o sv, ServicePc.task sv = some (.native d r) →
      Move s { s.operate (.native d r) o with service := sv } :=
    fun o sv hsv => .operate _ o h {} hsv (deviceOps_operate s _ o)
  have hquiet : ∀ sv, ServicePc.task sv = some (.native d r) → Move s { s with service := sv } :=
    fun sv hsv => .quiet {} (hsv.trans h.symm) rfl
  cases pc with
  | resetReg =>
    simp only [State.nativeStep]
    split
    · exact hquiet _ rfl
    · exact hop _ _ rfl
  | account =>
    simp only [State.nativeStep]
    split
    · exact hquiet _ rfl
    · exact hquiet _ rfl
  | lenReg wtCount =>
    simp only [State.nativeStep]
    split
    · exact hquiet _ rfl
    · exact hop _ _ rfl
  | write i wtCount =>
    simp only [State.nativeStep]
    split
    · split
      · exact hquiet _ rfl
      · exact hop _ _ rfl
    · exact hquiet _ rfl
  | clear =>
    simp only [State.nativeStep]
    split <;> exact hquiet _ rfl
  | readReg =>
    simp only [State.nativeStep]
    split
    · exact hquiet _ rfl
    · split
      · exact hop _ _ rfl
      · exact hop _ _ rfl
  | read i rdCount =>
    simp only [State.nativeStep]
    split
    · split
      · exact hquiet _ rfl
      · exact hop _ _ rfl
    · exact hquiet _ rfl
  | resetAfter =>
    simp only [State.nativeStep]
    split
    · exact hquiet _ rfl
    · exact hop _ _ rfl
  | respond => exact .finish _ h rfl rfl rfl rfl rfl rfl

theorem remoteStep_move (cfg : Config) (env : ServiceEnv) {n : Nat} {pc : RemotePc}
    (h : s.service.task = some (.remote n)) : Move s (s.remoteStep cfg env n pc) := by
  have hop : ∀ o sv buf, ServicePc.task sv = some (.remote n) →
      Move s { s.operate (.remote n) o with service := sv, remoteBuf := buf } :=
    fun o sv buf hsv => .operate _ o h {} hsv (deviceOps_operate s _ o)
  have hquiet : ∀ sv length, ServicePc.task sv = some (.remote n) →
      Move s { s with service := sv, remoteLength := length } :=
    fun sv length hsv => .quiet {} (hsv.trans h.symm) rfl
  cases pc with
  | load => exact hquiet _ _ rfl
  | lenReg addr length =>
    simp only [State.remoteStep]
    split
    · exact hquiet _ _ rfl
    · split
      · exact hop _ _ _ rfl
      · exact hop _ _ _ rfl
  | write addr length i =>
    simp only [State.remoteStep]
    split
    · split
      · exact hquiet _ _ rfl
      · exact hop _ _ _ rfl
    · exact hquiet _ _ rfl
  | readReg addr length =>
    simp only [State.remoteStep]
    split
    · exact hquiet _ _ rfl
    · exact hop _ _ _ rfl
  | read addr length reg got =>
    simp only [State.remoteStep]
    split
    · split
      · exact hquiet _ _ rfl
      · exact hop _ _ _ rfl
    · exact hquiet _ _ rfl
  | push addr length reg got => exact .finish _ h rfl rfl rfl rfl rfl rfl

theorem reqStep_move (cfg : Config) (s : State) (env : ServiceEnv) : Move s (s.reqStep cfg env) := by
  unfold State.reqStep
  cases hpc : s.service with
  | wait =>
    cases hq : s.nativeQueue with
    | nil => exact .quiet {} rfl rfl
    | cons t rest =>
      refine .take t (by rw [hpc]; rfl) rfl hq rfl rfl ?_ rfl
      cases t <;> rfl
  | native d r pc => exact nativeStep_move cfg env (by rw [hpc]; rfl)
  | remote n pc => exact remoteStep_move cfg env (by rw [hpc]; rfl)
  | dead t => exact .quiet {} rfl rfl

theorem conStep_move (s : State) (received : Received) : Move s (s.conStep received) := by
  unfold State.conStep
  cases s.socket with
  | recv => cases received <;> exact .quiet {} rfl rfl
  | push n => exact .push (.remote n) rfl rfl rfl rfl rfl rfl

theorem irqStep_move (cfg : Config) (s : State) (d : Dom) (env : IrqEnv) :
    Move s (s.irqStep cfg d env) := by
  simp only [State.irqStep]
  split
  · split
    · exact .push (.native d _) rfl rfl rfl rfl rfl rfl
    · split
      · refine .quiet {} rfl ?_
        simp [State.deviceOps, Event.taskOp]
      · exact .quiet {} rfl rfl
    · exact .quiet {} rfl rfl
    · exact .quiet {} rfl rfl
  · exact .quiet {} rfl rfl

theorem step_move {cfg : Config} {l : Label} (h : step cfg s l = some s') : Move s s' := by
  cases l with
  | put d op =>
    cases h
    exact .quiet {} rfl rfl
  | probe =>
    cases h
    refine .quiet {} rfl ?_
    simp [State.deviceOps, Event.taskOp]
  | irq d env =>
    cases h
    exact irqStep_move cfg s d env
  | reqthrd env =>
    cases h
    exact reqStep_move cfg s env
  | conthrd received =>
    cases h
    exact conStep_move s received

/-! ## Order and contiguity -/

/-- The finished tasks have their segments, the running one has the rest. -/
def Segmented (s : State) : Prop :=
  ∃ g cur, g.map Prod.fst = s.finished ∧ s.deviceOps = segments g ++ cur ∧
    ∀ x ∈ cur, s.service.task = some x.1

theorem segments_append (g h : List (Task × List DevOp)) :
    segments (g ++ h) = segments g ++ segments h := List.flatMap_append

theorem segments_singleton {t : Task} {cur : List (Task × DevOp)}
    (h : ∀ x ∈ cur, some t = some x.1) :
    segments [(t, cur.map Prod.snd)] = cur := by
  have hmap : ∀ x ∈ cur, ((t, x.2) : Task × DevOp) = x := by
    intro x hx
    rw [Option.some.inj (h x hx)]
  simp only [segments, List.flatMap_cons, List.flatMap_nil, List.append_nil, List.map_map]
  exact (List.map_congr_left hmap).trans (List.map_id _)

theorem eq_nil_of_idle {cur : List (Task × DevOp)} (h : ∀ x ∈ cur, (none : Option Task) = some x.1) :
    cur = [] :=
  List.eq_nil_iff_forall_not_mem.mpr fun x hx => Option.some_ne_none _ (h x hx).symm

theorem Move.segmented (hm : Move s s') (h : Segmented s) : Segmented s' := by
  obtain ⟨g, cur, hfst, hops, hcur⟩ := h
  cases hm with
  | quiet kept task ops =>
    exact ⟨g, cur, kept.finished ▸ hfst, ops.trans hops, task ▸ hcur⟩
  | push t pushed nativeQueue begun finished task ops =>
    exact ⟨g, cur, finished ▸ hfst, ops.trans hops, task ▸ hcur⟩
  | take t idle pushed nativeQueue begun finished task ops =>
    rw [idle] at hcur
    obtain rfl := eq_nil_of_idle hcur
    exact ⟨g, [], finished ▸ hfst, ops.trans hops, by simp⟩
  | operate t o running kept task ops =>
    refine ⟨g, cur ++ [(t, o)], kept.finished ▸ hfst, by rw [ops, hops, List.append_assoc], ?_⟩
    intro x hx
    rcases List.mem_append.mp hx with hx | hx
    · exact task.trans (running.symm.trans (hcur x hx))
    · rw [List.mem_singleton.mp hx]
      exact task
  | finish t running pushed nativeQueue begun finished task ops =>
    rw [running] at hcur
    refine ⟨g ++ [(t, cur.map Prod.snd)], [], by simp [hfst, finished], ?_, by simp⟩
    rw [segments_append, segments_singleton hcur, List.append_nil, ops, hops]

theorem Move.fifo (hm : Move s s') (h : s.pushed = s.begun ++ s.nativeQueue) :
    s'.pushed = s'.begun ++ s'.nativeQueue := by
  cases hm with
  | quiet kept task ops => rw [kept.pushed, kept.begun, kept.nativeQueue, h]
  | push t pushed nativeQueue begun finished task ops =>
    rw [pushed, begun, nativeQueue, h, List.append_assoc]
  | take t idle pushed nativeQueue begun finished task ops =>
    rw [pushed, begun, h, nativeQueue, List.append_assoc]
    rfl
  | operate t o running kept task ops => rw [kept.pushed, kept.begun, kept.nativeQueue, h]
  | finish t running pushed nativeQueue begun finished task ops =>
    rw [pushed, begun, nativeQueue, h]

theorem Move.one (hm : Move s s') (h : s.begun = s.finished ++ s.service.task.toList) :
    s'.begun = s'.finished ++ s'.service.task.toList := by
  cases hm with
  | quiet kept task ops => rw [kept.begun, kept.finished, task, h]
  | push t pushed nativeQueue begun finished task ops => rw [begun, finished, task, h]
  | take t idle pushed nativeQueue begun finished task ops =>
    rw [begun, finished, task, h, idle, Option.toList_none, List.append_nil]
    rfl
  | operate t o running kept task ops => rw [kept.begun, kept.finished, task, h, running]
  | finish t running pushed nativeQueue begun finished task ops =>
    rw [begun, finished, task, h, running, Option.toList_none, List.append_nil]
    rfl

theorem Segmented.contiguous (h : Segmented s)
    (one : s.begun = s.finished ++ s.service.task.toList) :
    ∃ g, g.map Prod.fst = s.begun ∧ s.deviceOps = segments g := by
  obtain ⟨g, cur, hfst, hops, hcur⟩ := h
  cases htask : s.service.task with
  | none =>
    rw [htask] at hcur one
    obtain rfl := eq_nil_of_idle hcur
    exact ⟨g, by rw [hfst, one, Option.toList_none, List.append_nil], by rw [hops, List.append_nil]⟩
  | some t =>
    rw [htask] at hcur one
    refine ⟨g ++ [(t, cur.map Prod.snd)], by simp [hfst, one], ?_⟩
    rw [segments_append, segments_singleton hcur, hops]

end

/-- Native service order and contiguity, in every run of a server. -/
theorem service_order (cfg : Config) (mapped : Dom → Nat) (remoteBuf : Nat → UInt8)
    (ls : List Label) :
    ∃ t, exec (step cfg) (start mapped remoteBuf) ls = some t ∧ Ordered t := by
  obtain ⟨t, hrun⟩ := exec_total (step_total cfg) (start mapped remoteBuf) ls
  refine ⟨t, hrun, ?_⟩
  have hinv : t.pushed = t.begun ++ t.nativeQueue ∧
      t.begun = t.finished ++ t.service.task.toList ∧ Segmented t :=
    invariant
      (I := fun s => s.pushed = s.begun ++ s.nativeQueue ∧
        s.begun = s.finished ++ s.service.task.toList ∧ Segmented s)
      (fun h hstep => ⟨(step_move hstep).fifo h.1, (step_move hstep).one h.2.1,
        (step_move hstep).segmented h.2.2⟩)
      ⟨rfl, rfl, [], [], rfl, rfl, by simp⟩ hrun
  exact ⟨hinv.1, hinv.2.1, hinv.2.2.contiguous hinv.2.1⟩

/-! ## The results -/

/-- No thread of the server has a step: the queues they serve are empty and no datagram waits. -/
structure Quiescent (cfg : Config) (s : State) : Prop where
  served : s.nativeQueue = []
  service : ∀ env, s.reqStep cfg env = s
  socket : s.conStep .nothing = s

structure Settled (s : State) : Prop where
  drained : s.sendtocliQueue = []
  answered : s.sent.length = s.executed.length

def NoResult (s : State) : Label → Prop
  | .reqthrd _ => ∀ n addr length reg got, s.service ≠ .remote n (.push addr length reg got)
  | _ => True

section
variable {s s' : State}

/-- What a step does to the results; none of them is ever sent. -/
inductive Result (s : State) (l : Label) (s' : State) : Prop where
  | keep (idle : NoResult s l) (sent : s'.sent = s.sent)
      (queue : s'.sendtocliQueue = s.sendtocliQueue) (executed : s'.executed = s.executed)
  | push (e : Executed) (pushing : ¬NoResult s l) (sent : s'.sent = s.sent)
      (queue : s'.sendtocliQueue = s.sendtocliQueue ++ [e.task])
      (executed : s'.executed = s.executed ++ [e])

theorem reqStep_result (cfg : Config) (s : State) (env : ServiceEnv) :
    Result s (.reqthrd env) (s.reqStep cfg env) := by
  unfold State.reqStep
  cases hpc : s.service with
  | wait => cases s.nativeQueue <;> exact .keep (by simp [NoResult, hpc]) rfl rfl rfl
  | native d r pc =>
    have hno : NoResult s (.reqthrd env) := by simp [NoResult, hpc]
    cases pc <;> simp only [State.nativeStep] <;> (repeat' split) <;> exact .keep hno rfl rfl rfl
  | remote n pc =>
    cases pc with
    | push addr length reg got =>
      exact .push ⟨n, addr, reg, got⟩ (fun hno => hno n addr length reg got hpc) rfl rfl rfl
    | _ =>
      have hno : NoResult s (.reqthrd env) := by simp [NoResult, hpc]
      simp only [State.remoteStep]
      (repeat' split) <;> exact .keep hno rfl rfl rfl
  | dead t => exact .keep (by simp [NoResult, hpc]) rfl rfl rfl

theorem step_result {cfg : Config} {l : Label} (h : step cfg s l = some s') : Result s l s' := by
  cases l with
  | reqthrd env =>
    cases h
    exact reqStep_result cfg s env
  | put d op =>
    cases h
    exact .keep trivial rfl rfl rfl
  | probe =>
    cases h
    exact .keep trivial rfl rfl rfl
  | irq d env =>
    cases h
    simp only [State.irqStep]
    (repeat' split) <;> exact .keep trivial rfl rfl rfl
  | conthrd received =>
    cases h
    simp only [State.conStep]
    (repeat' split) <;> exact .keep trivial rfl rfl rfl

theorem step_executed_iff {cfg : Config} {l : Label} (h : step cfg s l = some s') :
    s'.executed = [] ↔ s.executed = [] ∧ NoResult s l := by
  cases step_result h with
  | keep idle sent queue executed => simp [executed, idle]
  | push e pushing sent queue executed => simp [executed, pushing]

structure Stranded (s : State) : Prop where
  sent : s.sent = []
  queue : s.sendtocliQueue = s.executed.map Executed.task

theorem Stranded.step {cfg : Config} {l : Label} (hs : Stranded s)
    (h : step cfg s l = some s') : Stranded s' := by
  cases step_result h with
  | keep idle sent queue executed =>
    exact ⟨sent.trans hs.sent, by rw [queue, executed, hs.queue]⟩
  | push e pushing sent queue executed =>
    exact ⟨sent.trans hs.sent, by rw [queue, executed, hs.queue, List.map_append]; rfl⟩

theorem Stranded.settled_iff (h : Stranded s) : Settled s ↔ s.executed = [] := by
  constructor
  · intro hs
    exact List.map_eq_nil_iff.mp (h.queue.symm.trans hs.drained)
  · intro hs
    exact ⟨by rw [h.queue, hs]; rfl, by simp [h.sent, hs]⟩

end

/-- A quiescent server has sent its results exactly after a run that had none. -/
theorem results_sent (cfg : Config) (mapped : Dom → Nat) (remoteBuf : Nat → UInt8)
    (ls : List Label) :
    ∃ t, exec (step cfg) (start mapped remoteBuf) ls = some t ∧
      (Quiescent cfg t → (Settled t ↔ Along (step cfg) NoResult (start mapped remoteBuf) ls)) := by
  obtain ⟨t, hrun⟩ := exec_total (step_total cfg) (start mapped remoteBuf) ls
  refine ⟨t, hrun, fun _ => ?_⟩
  have hstranded : Stranded t := invariant (fun h hstep => h.step hstep) ⟨rfl, rfl⟩ hrun
  rw [hstranded.settled_iff,
    along_iff (P := fun s => s.executed = []) (fun hstep => step_executed_iff hstep) hrun]
  exact and_iff_right rfl

def oneDatagram : List Label :=
  .conthrd (.datagram ⟨leBytes 4 8 ++ leBytes 8 1, 7⟩) :: .conthrd .nothing ::
    List.replicate 9 (.reqthrd { reg := some 8, block := some (leBytes 8 2) })

theorem result_stranded :
    ∃ t, exec (step (serverConfig ⟨4096, 4096⟩ 32)) (start (fun _ => 0) fun _ => 0) oneDatagram
      = some t ∧
      Quiescent (serverConfig ⟨4096, 4096⟩ 32) t ∧ ¬Settled t := by
  refine exists_end_view _
    (fun t => (t.nativeQueue, t.service, t.socket, t.sendtocliQueue))
    (v := ([], .wait, .recv, [0])) (by decide +kernel) fun t _ hv => ?_
  simp only [Prod.mk.injEq] at hv
  obtain ⟨hnative, hservice, hsocket, hqueue⟩ := hv
  refine ⟨⟨hnative, fun env => ?_, ?_⟩, fun hs => ?_⟩
  · simp [State.reqStep, hservice, hnative]
  · simp [State.conStep, hsocket]
  · have hnil := hs.drained
    simp [hqueue] at hnil

end PdmaXen.NetDom0.Server
