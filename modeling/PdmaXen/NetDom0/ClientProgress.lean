import PdmaXen.NetDom0.Backend

/-!
# Progress of a client

A client waits for the server's reply on `comp_waitser` before it has sent the
request, and only the waiting thread itself would complete it. Nothing the client
takes from `remote_queue` is ever sent.
-/

namespace PdmaXen.NetDom0
set_option autoImplicit false
open Machine

inductive Thread where
  | irq (d : Dom)
  | reqthrd
  | conthrd
deriving DecidableEq

def Label.thread : Label → Option Thread
  | .put _ _ => none
  | .irq d _ => some (.irq d)
  | .reqthrd => some .reqthrd
  | .conthrd _ => some .conthrd

inductive Completion where
  | compWaitser (d : Dom)
  | recvServerResp
deriving DecidableEq

namespace Backend

def done (s : Backend) : Completion → Nat
  | .compWaitser d => (s.chrif d).compWaitser
  | .recvServerResp => s.recvServerResp

def waitsFor (s : Backend) : Thread → Option Completion
  | .conthrd =>
    match s.conThrd with
    | .waitSer d _ => some (.compWaitser d)
    | .waitResp _ _ => some .recvServerResp
    | _ => none
  | _ => none

end Backend

/-- The thread is blocked, and no run of the others completes what it waits for. -/
def SelfBlocked (cfg : Config) (s : Backend) (t : Thread) : Prop :=
  ∃ c, s.waitsFor t = some c ∧
    ∀ ls u, (∀ l ∈ ls, l.thread ≠ some t) → exec (step cfg) s ls = some u → u.done c = 0

def MayBeSent (cfg : Config) (s : Backend) (w : Dom × Req) : Prop :=
  ∃ ls u, exec (step cfg) s ls = some u ∧ w ∈ u.sent

/-- No thread blocks on itself, and what was dequeued is sent or can still be. The
calls before the send fault or come back; none of them reports an error. -/
structure Progress (cfg : Config) (s : Backend) : Prop where
  free : ∀ t, ¬ SelfBlocked cfg s t
  sent : ∀ w ∈ s.dequeued, MayBeSent cfg s w

/-- The step does not take a request from `remote_queue`. -/
def NoDequeue (s : Backend) : Label → Prop
  | .conthrd _ => s.conThrd = .wait → s.remoteQueue = []
  | _ => True

/-! ## Stuck for good -/

def ConPc.stuck : ConPc → Bool
  | .writeResp _ _ _ | .waitSer _ _ | .dead => true
  | _ => false

/-- The remote thread has taken nothing, or it is stuck with the first request;
nothing was completed and nothing sent. -/
structure NothingSent (s : Backend) : Prop where
  waitser : ∀ d, (s.chrif d).compWaitser = 0
  sent : s.sent = []
  remote : s.dequeued = [] ∧ s.conThrd = .wait ∨ s.dequeued ≠ [] ∧ s.conThrd.stuck = true

theorem compWaitser_irqStep (cfg : Config) (c : Chrif) (env : IrqEnv) :
    (c.irqStep cfg env).compWaitser = c.compWaitser := by
  cases hpc : c.irq with
  | scan rp =>
    simp only [Chrif.irqStep, hpc]
    split_ifs <;> rfl
  | serve r rp =>
    simp only [Chrif.irqStep, hpc]
    cases c.operation r with
    | ioctl =>
      simp only
      split <;> rfl
    | _ => rfl
  | _ => simp [Chrif.irqStep, hpc, Chrif.setIrq]

theorem compWaitser_setChrif (s : Backend) (d d' : Dom) {c : Chrif}
    (h : c.compWaitser = (s.chrif d').compWaitser) :
    ((s.setChrif d' c).chrif d).compWaitser = (s.chrif d).compWaitser := by
  by_cases hd : d = d'
  · subst hd
    simpa using h
  · simp [hd]

section Client
variable {info : PdmaInfo} {ringSize : Nat} {strayCall : Bool} {s t : Backend}

theorem nothingSent_conStep (hs : NothingSent s) (datagram : Bool) :
    NothingSent (s.conStep (clientConfig info ringSize strayCall) datagram) := by
  have hdev : (clientConfig info ringSize strayCall).devOn = false := rfl
  unfold Backend.conStep
  rw [hdev]
  simp only [Bool.false_eq_true, if_false]
  cases hpc : s.conThrd with
  | wait =>
    cases s.remoteQueue with
    | nil => exact hs
    | cons w rest => exact ⟨hs.waitser, hs.sent, Or.inr ⟨by simp, rfl⟩⟩
  | writeResp d r stage =>
    have hne : s.dequeued ≠ [] := by
      rcases hs.remote with h | h
      · rw [hpc] at h
        cases h.2
      · exact h.1
    simp only
    split
    · have hwait := fun d' => compWaitser_setChrif s d' d (c := (s.chrif d).drop r) rfl
      exact ⟨fun d' => (hwait d').trans (hs.waitser d'), hs.sent, Or.inr ⟨hne, rfl⟩⟩
    · refine ⟨hs.waitser, hs.sent, Or.inr ⟨hne, ?_⟩⟩
      cases stage <;> rfl
  | waitSer d r =>
    simp only [hs.waitser d, if_true]
    exact hs
  | dead => exact hs
  | _ =>
    rcases hs.remote with h | h
    · rw [hpc] at h
      cases h.2
    · rw [hpc] at h
      cases h.2

theorem nothingSent_step {l : Label} (hs : NothingSent s)
    (h : step (clientConfig info ringSize strayCall) s l = some t) : NothingSent t := by
  cases l with
  | put d op =>
    cases h
    have hwait := fun d' => compWaitser_setChrif s d' d
      (c := { s.chrif d with reqs := (s.chrif d).reqs ++ [op] }) rfl
    exact ⟨fun d' => (hwait d').trans (hs.waitser d'), hs.sent, hs.remote⟩
  | irq d env =>
    cases h
    obtain ⟨hcon, hdeq, hsent⟩ := s.irqStep_frame (clientConfig info ringSize strayCall) d env
    constructor
    · intro d'
      rw [Backend.chrif_irqStep]
      exact (compWaitser_setChrif s d' d (compWaitser_irqStep _ _ _)).trans (hs.waitser d')
    · rw [hsent]
      exact hs.sent
    · rw [hcon, hdeq]
      exact hs.remote
  | reqthrd =>
    cases h
    exact hs
  | conthrd datagram =>
    cases h
    exact nothingSent_conStep hs datagram

theorem dequeued_step {l : Label} (h : step (clientConfig info ringSize strayCall) s l = some t) :
    t.dequeued = [] ↔ s.dequeued = [] ∧ NoDequeue s l := by
  cases l with
  | put d op =>
    cases h
    simp [NoDequeue, Backend.put, Backend.setChrif]
  | irq d env =>
    cases h
    simp [NoDequeue, (s.irqStep_frame _ d env).2.1]
  | reqthrd =>
    cases h
    simp [NoDequeue, Backend.reqStep, clientConfig, Config.devOn]
  | conthrd datagram =>
    cases h
    have hdev : (clientConfig info ringSize strayCall).devOn = false := rfl
    unfold Backend.conStep
    rw [hdev]
    simp only [Bool.false_eq_true, if_false, NoDequeue]
    cases hpc : s.conThrd with
    | wait => cases s.remoteQueue <;> simp
    | writeResp d r stage => simp only; split <;> simp [Backend.lose, Backend.setChrif]
    | waitSer d r => simp only; split <;> simp [Backend.setChrif]
    | recv d r => cases s.submitQueue <;> simp [Backend.lose, Backend.setChrif]
    | recvmsg d r d' => cases datagram <;> simp [Backend.setChrif]
    | waitResp d r => simp only; split <;> simp [Backend.lose, Backend.setChrif]
    | _ => simp

theorem waitSer_selfBlocked {d : Dom} {r : Req} (hs : NothingSent s) (h : s.conThrd = .waitSer d r) :
    SelfBlocked (clientConfig info ringSize strayCall) s .conthrd := by
  refine ⟨.compWaitser d, by simp [Backend.waitsFor, h], ?_⟩
  intro ls u _ hrun
  exact (invariant nothingSent_step hs hrun).waitser d

theorem progress_iff (hs : NothingSent s) :
    Progress (clientConfig info ringSize strayCall) s ↔ s.dequeued = [] := by
  constructor
  · intro h
    by_contra hne
    obtain ⟨w, hw⟩ := List.exists_mem_of_ne_nil _ hne
    obtain ⟨ls, u, hrun, hsent⟩ := h.sent w hw
    rw [(invariant nothingSent_step hs hrun).sent] at hsent
    cases hsent
  · intro hnil
    have hwait : s.conThrd = .wait := by
      rcases hs.remote with h | h
      · exact h.2
      · exact absurd hnil h.1
    constructor
    · rintro t ⟨c, hc, _⟩
      cases t with
      | conthrd => simp [Backend.waitsFor, hwait] at hc
      | _ => cases hc
    · intro w hw
      rw [hnil] at hw
      cases hw

end Client

theorem nothingSent_start (mapped : Dom → Nat) : NothingSent (.start mapped) :=
  ⟨fun _ => rfl, rfl, Or.inl ⟨rfl, rfl⟩⟩

/-- A client makes progress in exactly the runs that dequeue no request. -/
theorem client_progress (info : PdmaInfo) (ringSize : Nat) (strayCall : Bool)
    (mapped : Dom → Nat) (ls : List Label) :
    ∃ t, exec (step (clientConfig info ringSize strayCall)) (.start mapped) ls = some t ∧
      (Progress (clientConfig info ringSize strayCall) t ↔
        Along (step (clientConfig info ringSize strayCall)) NoDequeue (.start mapped) ls) := by
  obtain ⟨t, hrun⟩ :=
    exec_total (step_total (clientConfig info ringSize strayCall)) (.start mapped) ls
  refine ⟨t, hrun, ?_⟩
  rw [progress_iff (invariant nothingSent_step (nothingSent_start mapped) hrun),
    along_iff (P := fun s => s.dequeued = []) dequeued_step hrun]
  simp [Backend.start]

def oneWrite : List Label :=
  .put 0 .map :: .put 0 .write :: List.replicate 6 (.irq 0 {}) ++ [.conthrd false]

/-- With the `NULL` file the thread dies in its first device call; were the calls
to come back it would wait for itself. -/
theorem dequeued_write_never_sent :
    (∃ t, exec (step (clientConfig ⟨0, 0⟩ 32 false)) (.start fun _ => 0)
        (oneWrite ++ [.conthrd false]) = some t ∧
      ¬ Progress (clientConfig ⟨0, 0⟩ 32 false) t) ∧
    ∃ t, exec (step (clientConfig ⟨4096, 4096⟩ 32 true)) (.start fun _ => 0)
        (oneWrite ++ List.replicate 5 (.conthrd false)) = some t ∧
      SelfBlocked (clientConfig ⟨4096, 4096⟩ 32 true) t .conthrd := by
  have hinit := nothingSent_start fun _ => 0
  constructor
  · refine exists_end_view _ Backend.dequeued (v := [(0, 1)]) (by decide) fun t hrun hview => ?_
    rw [progress_iff (invariant nothingSent_step hinit hrun), hview]
    simp
  · refine exists_end_view _ Backend.conThrd (v := .waitSer 0 1) (by decide) fun t hrun hview => ?_
    exact waitSer_selfBlocked (invariant nothingSent_step hinit hrun) hview

end PdmaXen.NetDom0
