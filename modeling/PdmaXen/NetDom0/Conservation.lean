import Mathlib.Data.List.Perm.Subperm
import Mathlib.Order.Interval.Finset.Nat
import PdmaXen.NetDom0.Dispatchers

/-!
# Conservation of tasks and response buffers

Only `xen_sock_sendmsg_to_client` frees a task, and the tasks it frees are made at the
end of others that nobody frees. A response buffer is never freed, and all requests of
one call of `__do_char_io_op` share one. So the objects are conserved exactly as long
as no task comes to its end and every call hands its buffer to one WRITE.
-/

namespace PdmaXen.NetDom0.Objects
set_option autoImplicit false
open Circular Machine

def inCall (c : Chrif) : Bool :=
  match c.irq with
  | .idle | .finalCheck => false
  | .fetch | .scan _ | .serve _ _ | .dead => true

/-- At work on a request that is answered; MAP is not. -/
def answering (c : Chrif) : Bool :=
  match c.irq with
  | .serve r _ => c.operation r != .map
  | _ => false

/-- What can use a response buffer. -/
inductive User where
  | call (d : Dom)
  | task (n : Nat)
deriving DecidableEq

namespace State

def live (s : State) : List Nat := (List.range s.nextTask).filter (· ∉ s.freed)

/-- A call uses its buffer until it has put it in a task, and whenever it works on a request
to answer; a WRITE's task uses it as long as it is queued, submitted or being executed. -/
def Uses (s : State) : User → Nat → Prop
  | .call d, b => inCall (s.chrif d) = true ∧ (s.calls d).resp = b ∧
      ((s.calls d).pushed = false ∨ answering (s.chrif d) = true)
  | .task n, b => n ∈ s.held ∧ ∃ d r, s.tasks n = .native d r b

end State

/-- Every task that is allocated and not freed is in one place, none is freed twice, and every
response buffer is in use by one request. -/
structure Conserved (s : State) : Prop where
  tasks : s.live.Perm s.held
  freedOnce : s.freed.Nodup
  used : ∀ b < s.nextResp, ∃ u, s.Uses u b
  alone : ∀ u u' b, s.Uses u b → s.Uses u' b → u = u'

/-- No task comes to its end; a call of `__do_char_io_op` takes a request to answer only while
it has not put its buffer in a task, and returns only when it has. -/
def Keeps (cfg : Config) (s : State) : Label → Prop
  | .irq d env =>
    match (s.chrif d).irq with
    | .scan _ =>
      match ((s.chrif d).irqStep cfg env).irq with
      | .serve r _ => (s.chrif d).operation r = .map ∨ (s.calls d).pushed = false
      | _ => (s.calls d).pushed = true
    | _ => True
  | l => s.finishes cfg l = false

/-! ## Counting the tasks -/

section
variable {cfg : Config} {s s' : State}

theorem Owned.freed_nodup (h : Owned s) : s.freed.Nodup := (List.nodup_append.mp h.nodup).2.1

theorem Owned.length_live (h : Owned s) : s.live.length + s.freed.length = s.nextTask := by
  have hfreed : ((List.range s.nextTask).filter (· ∈ s.freed)).Perm s.freed := by
    rw [List.perm_ext_iff_of_nodup (List.nodup_range.filter _) h.freed_nodup]
    intro n
    rw [List.mem_filter, List.mem_range, decide_eq_true_iff]
    exact ⟨And.right, fun hn => ⟨h.lt n (List.mem_append_right _ hn), hn⟩⟩
  have hsplit := List.length_eq_length_filter_add (l := List.range s.nextTask) (· ∈ s.freed)
  rw [List.length_range, hfreed.length_eq] at hsplit
  have hlive : s.live = (List.range s.nextTask).filter fun n => !decide (n ∈ s.freed) := by
    simp [State.live]
  rw [hlive]
  omega

theorem Owned.held_sub (h : Owned s) : s.held ⊆ s.live := by
  intro n hn
  rw [State.live, List.mem_filter, List.mem_range, decide_eq_true_iff]
  refine ⟨h.lt n (List.mem_append_left _ hn), fun hfreed => ?_⟩
  exact (List.nodup_append.mp h.nodup).2.2 n hn n hfreed rfl

theorem Owned.tasks_iff (h : Owned s) :
    s.live.Perm s.held ↔ s.known.length = s.nextTask := by
  have hlen := h.length_live
  have hknown : s.known.length = s.held.length + s.freed.length := List.length_append
  constructor
  · intro hperm
    have := hperm.length_eq
    omega
  · intro heq
    have hheld : s.held.Nodup := (List.nodup_append.mp h.nodup).1
    refine ((hheld.subperm h.held_sub).perm_of_length_le ?_).symm
    omega

theorem Change.length {lossy : Bool} (h : Change s s' lossy) (heq : s.known.length = s.nextTask) :
    s'.known.length = s'.nextTask ↔ lossy = false := by
  cases h with
  | same known nextTask =>
    have := known.length_eq
    simp only [iff_true]
    omega
  | new known nextTask =>
    have := known.length_eq
    simp only [List.length_cons, iff_true] at *
    omega
  | lost n known nextTask =>
    have := known.length_eq
    simp only [List.length_cons, Bool.true_eq_false, iff_false] at *
    omega
  | swapped n known nextTask =>
    have := known.length_eq
    simp only [List.length_cons, Bool.true_eq_false, iff_false] at *
    omega

end

/-! ## The rings -/

/-- A handler scans what was on the ring and works on what it took. -/
def Scanned (c : Chrif) : Prop :=
  c.reqCons ≤ c.reqs.length ∧
    match c.irq with
    | .scan rp => c.reqCons ≤ rp ∧ rp ≤ c.reqs.length
    | .serve r rp => r < c.reqCons ∧ c.reqCons ≤ rp ∧ rp ≤ c.reqs.length
    | _ => True

section
variable {cfg : Config} {s s' : State} {c : Chrif}

theorem scanned_of_eq {c' : Chrif} (h : Scanned c) (irq : c'.irq = c.irq) (reqs : c'.reqs = c.reqs)
    (reqCons : c'.reqCons = c.reqCons) : Scanned c' := by
  unfold Scanned
  rw [irq, reqs, reqCons]
  exact h

theorem scanned_put (h : Scanned c) (op : Op) : Scanned { c with reqs := c.reqs ++ [op] } := by
  obtain ⟨hle, hpc⟩ := h
  unfold Scanned
  simp only [List.length_append, List.length_singleton]
  refine ⟨by omega, ?_⟩
  cases hirq : c.irq with
  | scan rp =>
    simp only [hirq] at hpc ⊢
    omega
  | serve r rp =>
    simp only [hirq] at hpc ⊢
    exact ⟨hpc.1, hpc.2.1, hpc.2.2.trans (Nat.le_succ _)⟩
  | _ => trivial

theorem answering_put (h : Scanned c) (op : Op) :
    answering { c with reqs := c.reqs ++ [op] } = answering c := by
  obtain ⟨hle, hpc⟩ := h
  unfold answering
  cases hirq : c.irq with
  | serve r rp =>
    simp only [hirq] at hpc ⊢
    have hlt : r < c.reqs.length := hpc.1.trans_le hle
    simp only [Chrif.operation, List.getD_eq_getElem?_getD, List.getElem?_append_left hlt]
  | _ => rfl

theorem scanned_irqStep (h : Scanned c) (env : IrqEnv) :
    Scanned (c.irqStep cfg env) := by
  obtain ⟨hle, hpc⟩ := h
  unfold Chrif.irqStep
  cases hirq : c.irq with
  | idle => exact ⟨hle, trivial⟩
  | fetch => exact ⟨hle, hle, Nat.le_refl _⟩
  | scan rp =>
    simp only [hirq] at hpc ⊢
    split
    · exact ⟨hle, trivial⟩
    · next hne =>
      split
      · exact ⟨hle, trivial⟩
      · split
        · exact ⟨hle, trivial⟩
        · split
          · exact ⟨hle, trivial⟩
          · have hlt : c.reqCons < rp := lt_of_le_of_ne hpc.1 hne
            exact ⟨hlt.trans_le hpc.2, Nat.lt_succ_self _, hlt, hpc.2⟩
  | serve r rp =>
    simp only [hirq] at hpc ⊢
    cases c.operation r with
    | ioctl =>
      simp only
      split
      · exact ⟨hle, hpc.2⟩
      · exact ⟨hle, trivial⟩
    | _ => exact ⟨hle, hpc.2⟩
  | finalCheck =>
    simp only
    unfold Chrif.setIrq Scanned
    split <;> exact ⟨hle, trivial⟩
  | dead =>
    unfold Scanned
    rw [hirq]
    exact ⟨hle, trivial⟩

/-- What a handler's step does to its call. -/
inductive CallStep (c c' : Chrif) : Prop where
  | enter (before : inCall c = false) (inside : inCall c' = true)
      (pc : c.irq = .idle ∨ c.irq = .finalCheck ∧ c'.irq = .fetch)
  | leave (rp : Nat) (pc : c.irq = .scan rp) (outside : inCall c' = false)
      (left : ∀ r rp', c'.irq ≠ .serve r rp')
  | take (rp r rp' : Nat) (pc : c.irq = .scan rp) (inside : inCall c' = true)
      (serve : c'.irq = .serve r rp') (operation : c.operation r = c'.operation r)
  | done (r rp : Nat) (pc : c.irq = .serve r rp) (inside : inCall c' = true)
      (idle : answering c' = false)
  | stay (inCall : inCall c' = inCall c) (before : answering c = false)
      (idle : answering c' = false) (pc : c.irq = .fetch ∨ c.irq = .dead ∨
        c.irq = .finalCheck ∧ c'.irq ≠ .fetch)

theorem irqStep_call (cfg : Config) (c : Chrif) (env : IrqEnv) :
    CallStep c (c.irqStep cfg env) := by
  unfold Chrif.irqStep
  cases hirq : c.irq with
  | idle => exact .enter (by rw [inCall, hirq]) rfl (Or.inl hirq)
  | fetch =>
    exact .stay (by rw [inCall, inCall, hirq]; rfl) (by rw [answering, hirq]) rfl (Or.inl hirq)
  | scan rp =>
    simp only
    split
    · exact .leave rp hirq rfl (fun _ _ => IrqPc.noConfusion)
    · split
      · exact .leave rp hirq rfl (fun _ _ => IrqPc.noConfusion)
      · split
        · exact .leave rp hirq rfl (fun _ _ => IrqPc.noConfusion)
        · split
          · exact .leave rp hirq rfl (fun _ _ => IrqPc.noConfusion)
          · exact .take rp c.reqCons rp hirq rfl rfl rfl
  | serve r rp =>
    simp only
    cases c.operation r with
    | ioctl =>
      simp only
      split <;> exact .done r rp hirq rfl rfl
    | _ => exact .done r rp hirq rfl rfl
  | finalCheck =>
    simp only
    split
    · exact .enter (by rw [inCall, hirq]) rfl (Or.inr ⟨hirq, rfl⟩)
    · exact .stay (by rw [inCall, inCall, hirq]; rfl) (by rw [answering, hirq]) rfl
        (Or.inr (Or.inr ⟨hirq, IrqPc.noConfusion⟩))
  | dead =>
    exact .stay rfl (by rw [answering, hirq]) (by rw [answering, hirq]) (Or.inr (Or.inl hirq))

end

/-! ## The response buffers -/

/-- Every buffer is in use by one request, and no other buffers are in use. -/
structure Buffers (s : State) : Prop where
  used : ∀ b < s.nextResp, ∃ u, s.Uses u b
  alone : ∀ u u' b, s.Uses u b → s.Uses u' b → u = u'
  fresh : ∀ u b, s.Uses u b → b < s.nextResp

section
variable {cfg : Config} {s s' : State} {d : Dom}

theorem Buffers.congr (h : Buffers s) (uses : ∀ u b, s'.Uses u b ↔ s.Uses u b)
    (nextResp : s'.nextResp = s.nextResp) : Buffers s' := by
  refine ⟨fun b hb => ?_, fun u u' b hu hu' => ?_, fun u b hu => ?_⟩
  · obtain ⟨u, hu⟩ := h.used b (nextResp ▸ hb)
    exact ⟨u, (uses u b).mpr hu⟩
  · exact h.alone u u' b ((uses u b).mp hu) ((uses u' b).mp hu')
  · rw [nextResp]
    exact h.fresh u b ((uses u b).mp hu)

theorem Buffers.enter (h : Buffers s) (u₀ : User) (before : ∀ b, ¬ s.Uses u₀ b)
    (after : ∀ b, s'.Uses u₀ b ↔ b = s.nextResp)
    (others : ∀ u b, u ≠ u₀ → (s'.Uses u b ↔ s.Uses u b))
    (nextResp : s'.nextResp = s.nextResp + 1) : Buffers s' := by
  refine ⟨fun b hb => ?_, fun u u' b hu hu' => ?_, fun u b hu => ?_⟩
  · rw [nextResp] at hb
    rcases Nat.lt_succ_iff_lt_or_eq.mp hb with hlt | heq
    · obtain ⟨u, hu⟩ := h.used b hlt
      have hne : u ≠ u₀ := by
        rintro rfl
        exact before b hu
      exact ⟨u, (others u b hne).mpr hu⟩
    · exact ⟨u₀, (after b).mpr heq⟩
  · by_cases hne : u = u₀
    · by_cases hne' : u' = u₀
      · rw [hne, hne']
      · subst hne
        have hb := (after b).mp hu
        exact absurd (h.fresh u' b ((others u' b hne').mp hu')) (by omega)
    · by_cases hne' : u' = u₀
      · subst hne'
        have hb := (after b).mp hu'
        exact absurd (h.fresh u b ((others u b hne).mp hu)) (by omega)
      · exact h.alone u u' b ((others u b hne).mp hu) ((others u' b hne').mp hu')
  · rw [nextResp]
    by_cases hne : u = u₀
    · subst hne
      have hb := (after b).mp hu
      omega
    · have hb := h.fresh u b ((others u b hne).mp hu)
      omega

theorem Buffers.hand (h : Buffers s) (u₀ u₁ : User) (b₀ : Nat)
    (given : ∀ b, s.Uses u₀ b ↔ b = b₀) (left : ∀ b, ¬ s'.Uses u₀ b)
    (new : ∀ b, ¬ s.Uses u₁ b) (got : ∀ b, s'.Uses u₁ b ↔ b = b₀)
    (others : ∀ u b, u ≠ u₀ → u ≠ u₁ → (s'.Uses u b ↔ s.Uses u b))
    (nextResp : s'.nextResp = s.nextResp) : Buffers s' := by
  have hold : ∀ u b, s'.Uses u b → u ≠ u₁ → s.Uses u b ∧ u ≠ u₀ := by
    intro u b hu hne
    have hne' : u ≠ u₀ := by
      rintro rfl
      exact left b hu
    exact ⟨(others u b hne' hne).mp hu, hne'⟩
  refine ⟨fun b hb => ?_, fun u u' b hu hu' => ?_, fun u b hu => ?_⟩
  · obtain ⟨u, hu⟩ := h.used b (nextResp ▸ hb)
    have hne : u ≠ u₁ := by
      rintro rfl
      exact new b hu
    by_cases hne' : u = u₀
    · subst hne'
      exact ⟨u₁, (got b).mpr ((given b).mp hu)⟩
    · exact ⟨u, (others u b hne' hne).mpr hu⟩
  · have hclash : ∀ v, s'.Uses v b → v ≠ u₁ → b ≠ b₀ := by
      intro v hv hne hb
      obtain ⟨hvold, hvne⟩ := hold v b hv hne
      exact hvne (h.alone v u₀ b hvold ((given b).mpr hb))
    by_cases hne : u = u₁
    · by_cases hne' : u' = u₁
      · rw [hne, hne']
      · subst hne
        exact absurd ((got b).mp hu) (hclash u' hu' hne')
    · by_cases hne' : u' = u₁
      · subst hne'
        exact absurd ((got b).mp hu') (hclash u hu hne)
      · exact h.alone u u' b (hold u b hu hne).1 (hold u' b hu' hne').1
  · rw [nextResp]
    by_cases hne : u = u₁
    · subst hne
      rw [(got b).mp hu]
      exact h.fresh u₀ b₀ ((given b₀).mpr rfl)
    · exact h.fresh u b (hold u b hu hne).1

/-- What a step of a thread, of a front end or of `kthread_stop` leaves alone. -/
structure Plain (s s' : State) : Prop where
  calls : s'.calls = s.calls
  nextResp : s'.nextResp = s.nextResp
  rings : ∀ d, inCall (s'.chrif d) = inCall (s.chrif d) ∧
    answering (s'.chrif d) = answering (s.chrif d) ∧ (Scanned (s.chrif d) → Scanned (s'.chrif d))
  tasks : ∀ n, n ≠ s.nextTask → s'.tasks n = s.tasks n
  made : s'.nextTask = s.nextTask ∨ s'.tasks s.nextTask = .remote

theorem plain_of_rings (calls : s'.calls = s.calls) (nextResp : s'.nextResp = s.nextResp)
    (rings : ∀ d, (s'.chrif d).irq = (s.chrif d).irq ∧ (s'.chrif d).reqs = (s.chrif d).reqs ∧
      (s'.chrif d).reqCons = (s.chrif d).reqCons)
    (tasks : ∀ n, n ≠ s.nextTask → s'.tasks n = s.tasks n)
    (made : s'.nextTask = s.nextTask ∨ s'.tasks s.nextTask = .remote) : Plain s s' := by
  refine ⟨calls, nextResp, fun d => ?_, tasks, made⟩
  obtain ⟨hirq, hreqs, hcons⟩ := rings d
  refine ⟨?_, ?_, fun h => scanned_of_eq h hirq hreqs hcons⟩
  · simp only [inCall, hirq]
  · simp only [answering, Chrif.operation, hirq, hreqs]

theorem plain_of_eq (calls : s'.calls = s.calls) (nextResp : s'.nextResp = s.nextResp)
    (chrif : s'.chrif = s.chrif) (tasks : s'.tasks = s.tasks)
    (nextTask : s'.nextTask = s.nextTask) : Plain s s' := by
  refine plain_of_rings calls nextResp (fun d => ?_) (fun n _ => ?_) (Or.inl nextTask)
  · rw [chrif]
    exact ⟨rfl, rfl, rfl⟩
  · rw [tasks]

theorem plain_kmalloc (calls : s'.calls = s.calls) (nextResp : s'.nextResp = s.nextResp)
    (chrif : s'.chrif = s.chrif)
    (tasks : s'.tasks = Function.update s.tasks s.nextTask .remote) : Plain s s' := by
  refine plain_of_rings calls nextResp (fun d => ?_) (fun n hn => ?_) (Or.inr ?_)
  · rw [chrif]
    exact ⟨rfl, rfl, rfl⟩
  · rw [tasks, Function.update_of_ne hn]
  · rw [tasks, Function.update_self]

theorem reqStep_plain (cfg : Config) (s : State) : Plain s (s.reqStep cfg) := by
  unfold State.reqStep
  split
  · exact plain_of_eq rfl rfl rfl rfl rfl
  · cases s.reqThrd with
    | pop => cases s.queues.front .native <;> exact plain_of_eq rfl rfl rfl rfl rfl
    | respond n =>
      obtain ⟨chrif, heq, hrings⟩ := respond_rings s n
      simp only [heq]
      exact plain_of_rings rfl rfl hrings (fun _ _ => rfl) (Or.inl rfl)
    | remoteOp n =>
      simp only
      split
      · exact plain_kmalloc rfl rfl rfl rfl
      · exact plain_of_eq rfl rfl rfl rfl rfl
    | dead n => exact plain_of_eq rfl rfl rfl rfl rfl
    | _ => simp only; split <;> exact plain_of_eq rfl rfl rfl rfl rfl

theorem clientStep_plain (cfg : Config) (s : State) (received : Bool) :
    Plain s (s.clientStep cfg received) := by
  unfold State.clientStep
  cases s.conThrd with
  | pop => cases s.queues.front .remote <;> exact plain_of_eq rfl rfl rfl rfl rfl
  | recv => cases s.queues.front .submit <;> exact plain_of_eq rfl rfl rfl rfl rfl
  | waitSer n =>
    cases hwait : s.waitser n with
    | none =>
      simp only [hwait]
      exact plain_of_eq rfl rfl rfl rfl rfl
    | some t =>
      obtain ⟨chrif, rfl, hrings⟩ := waitser_rings hwait
      simp only [hwait]
      exact plain_of_rings rfl rfl hrings (fun _ _ => rfl) (Or.inl rfl)
  | recvmsg n =>
    obtain ⟨chrif, heq, hrings⟩ := completeWaitser_rings s n
    simp only [heq]
    split
    · exact plain_of_rings rfl rfl hrings (fun _ _ => rfl) (Or.inl rfl)
    · exact plain_of_eq rfl rfl rfl rfl rfl
  | send n | submit n | dead n => exact plain_of_eq rfl rfl rfl rfl rfl
  | _ => simp only; split <;> exact plain_of_eq rfl rfl rfl rfl rfl

theorem sendStep_plain (s : State) : Plain s s.sendStep := by
  unfold State.sendStep
  cases s.sender with
  | wait => simp only; split <;> exact plain_of_eq rfl rfl rfl rfl rfl
  | pop => cases s.queues.front .sendtocli <;> exact plain_of_eq rfl rfl rfl rfl rfl
  | _ => exact plain_of_eq rfl rfl rfl rfl rfl

theorem plain_of_note {t : Thread} {touches : Bool} (h : Plain (s.note t touches) s') :
    Plain s s' := by
  obtain ⟨l, hnote⟩ := note_frame s t touches
  rw [hnote] at h
  exact ⟨h.calls, h.nextResp, h.rings, h.tasks, h.made⟩

def Label.isIrq : Label → Bool
  | .irq _ _ => true
  | _ => false

theorem step_plain {l : Label} (hscan : ∀ d, Scanned (s.chrif d)) (hl : l.isIrq = false)
    (h : step cfg s l = some s') : Plain s s' := by
  cases l with
  | put d op =>
    cases h
    refine ⟨rfl, rfl, fun d' => ?_, fun _ _ => rfl, Or.inl rfl⟩
    by_cases hd : d' = d
    · subst hd
      rw [State.put, State.setChrif_self]
      exact ⟨rfl, answering_put (hscan d') op, fun hs => scanned_put hs op⟩
    · rw [State.put, State.setChrif_of_ne s _ hd]
      exact ⟨rfl, rfl, id⟩
  | irq d env => cases hl
  | reqthrd =>
    cases h
    exact plain_of_note (reqStep_plain cfg _)
  | conthrd received =>
    cases h
    unfold State.conStep State.recvmsgFromClient
    split
    · split
      · exact plain_of_note (plain_kmalloc rfl rfl rfl rfl)
      · exact plain_of_note (plain_of_eq rfl rfl rfl rfl rfl)
    · exact plain_of_note (clientStep_plain cfg _ received)
  | sendtocli =>
    cases h
    exact plain_of_note (sendStep_plain _)
  | kthreadStop t =>
    cases h
    exact plain_of_eq rfl rfl rfl rfl rfl

end

/-! ## Conserved objects -/

/-- The tasks and buffers are conserved, and nothing has come so far as to be sent. -/
structure Tidy (s : State) : Prop where
  owned : Owned s
  complete : s.known.length = s.nextTask
  unsent : s.queues.queued .sendtocli = []
  sender : s.sender.task = none
  scanned : ∀ d, Scanned (s.chrif d)
  resp : ∀ d, inCall (s.chrif d) = true → (s.calls d).resp < s.nextResp
  unpushed : ∀ d, answering (s.chrif d) = true → (s.calls d).pushed = false
  buffers : Buffers s

section
variable {cfg : Config} {s s' : State} {d : Dom} {env : IrqEnv}

theorem Tidy.conserved (h : Tidy s) : Conserved s :=
  ⟨h.owned.tasks_iff.mpr h.complete, h.owned.freed_nodup, h.buffers.used, h.buffers.alone⟩

theorem tidy_start (memory : Memory) (mapped : Dom → Nat) : Tidy (start memory mapped) where
  owned := owned_start memory mapped
  complete := rfl
  unsent := rfl
  sender := rfl
  scanned := fun _ => ⟨Nat.le_refl _, trivial⟩
  resp := fun _ h => nomatch h
  unpushed := fun _ h => nomatch h
  buffers := by
    have hnone : ∀ u b, ¬ (start memory mapped).Uses u b := by
      intro u b hu
      cases u with
      | call d => exact Bool.false_ne_true hu.1
      | task n => cases hu.1
    exact ⟨fun b hb => absurd hb (Nat.not_lt_zero b), fun u _ b hu => absurd hu (hnone u b),
      fun u b hu => absurd hu (hnone u b)⟩

theorem Move.held (h : Owned s) (sender : s.sender.task = none) (hm : Move s s' false) :
    s'.held.Perm s.held ∧ s'.nextTask = s.nextTask ∨
      s'.held.Perm (s.nextTask :: s.held) ∧ s'.nextTask = s.nextTask + 1 := by
  have hcount : ∀ (t : State) x, t.held.count x = t.queues.all.count x + t.hands.count x := by
    intro t x
    simp only [State.held, List.count_append]
  cases hm with
  | quiet queues hands nextTask freed =>
    refine Or.inl ⟨List.perm_iff_count.mpr fun x => ?_, nextTask⟩
    rw [hcount, hcount, queues, hands]
  | make q queues hands nextTask freed unsent =>
    refine Or.inr ⟨List.perm_iff_count.mpr fun x => ?_, nextTask⟩
    have hall := (h.sound.all_push q s.nextTask).count_eq x
    simp only [List.count_cons, hcount, queues, hands] at hall ⊢
    omega
  | take q n front queues hands nextTask freed here left =>
    refine Or.inl ⟨List.perm_iff_count.mpr fun x => ?_, nextTask⟩
    have hall := (h.sound.all_pop front).count_eq x
    have hhands := hands.count_eq x
    simp only [List.count_cons, hcount, queues] at hall hhands ⊢
    omega
  | miss q front queues hands nextTask freed here left =>
    refine Or.inl ⟨List.perm_iff_count.mpr fun x => ?_, nextTask⟩
    rw [hcount, hcount, queues, hands, h.sound.all_miss front]
  | give q n queues hands nextTask freed unsent =>
    refine Or.inl ⟨List.perm_iff_count.mpr fun x => ?_, nextTask⟩
    have hall := (h.sound.all_push q n).count_eq x
    have hhands := hands.count_eq x
    simp only [List.count_cons, hcount, queues] at hall hhands ⊢
    omega
  | free n queues hands nextTask freed sender' =>
    rw [sender] at sender'
    cases sender'

theorem Move.unsent (h : Owned s) (unsent : s.queues.queued .sendtocli = [])
    (hm : Move s s' false) : s'.queues.queued .sendtocli = [] := by
  cases hm with
  | quiet queues | free n queues =>
    rw [queues]
    exact unsent
  | make q queues hands nextTask freed hq | give q n queues hands nextTask freed hq =>
    rw [queues, h.sound.queued_push, Function.update_of_ne (Ne.symm hq)]
    exact unsent
  | take q n front queues | miss q front queues =>
    rw [queues, h.sound.queued_pop]
    by_cases hq : q = .sendtocli
    · subst hq
      rw [Function.update_self, unsent, List.tail_nil]
    · rw [Function.update_of_ne (Ne.symm hq)]
      exact unsent

theorem Tidy.uses_plain (h : Tidy s) (hp : Plain s s') (hm : Move s s' false) (u : User) (b : Nat) :
    s'.Uses u b ↔ s.Uses u b := by
  cases u with
  | call d =>
    obtain ⟨hin, hans, -⟩ := hp.rings d
    simp only [State.Uses, hin, hans, hp.calls]
  | task n =>
    have hne : n ∈ s.held → n ≠ s.nextTask := by
      rintro hn rfl
      exact h.owned.fresh (List.mem_append_left _ hn)
    simp only [State.Uses]
    rcases hm.held h.owned h.sender with ⟨hheld, -⟩ | ⟨hheld, hnext⟩
    · rw [hheld.mem_iff]
      refine and_congr_right fun hn => ?_
      rw [hp.tasks n (hne hn)]
    · rw [hheld.mem_iff, List.mem_cons]
      constructor
      · rintro ⟨rfl | hn, d, r, htask⟩
        · rcases hp.made with heq | hmade
          · omega
          · rw [hmade] at htask
            cases htask
        · rw [hp.tasks n (hne hn)] at htask
          exact ⟨hn, d, r, htask⟩
      · rintro ⟨hn, d, r, htask⟩
        refine ⟨Or.inr hn, d, r, ?_⟩
        rw [hp.tasks n (hne hn)]
        exact htask

theorem sendStep_idle (h : Owned s) (unsent : s.queues.queued .sendtocli = [])
    (sender : s.sender.task = none) : s.sendStep.sender.task = none := by
  have hfront : s.queues.front .sendtocli = none := by
    rw [h.sound.front_eq, unsent]
    rfl
  unfold State.sendStep
  cases hpc : s.sender with
  | wait =>
    simp only
    split
    · rfl
    · exact sender
  | pop =>
    simp only [hfront]
    rfl
  | send n =>
    rw [hpc] at sender
    cases sender
  | dead => exact sender

theorem sender_step {l : Label} (h : Tidy s) (hstep : step cfg s l = some s') :
    s'.sender.task = none := by
  cases l with
  | put d op =>
    cases hstep
    exact h.sender
  | irq d env =>
    cases hstep
    rw [(irqStep_frame cfg s d env).2.2.2.1]
    exact h.sender
  | reqthrd =>
    cases hstep
    rw [(reqStep_frame cfg _).2.1, (note_pcs s _ _).2.2.1]
    exact h.sender
  | conthrd received =>
    cases hstep
    unfold State.conStep State.recvmsgFromClient
    split
    · split
      · exact (congrArg SenderPc.task (note_pcs s _ _).2.2.1).trans h.sender
      · exact (congrArg SenderPc.task (note_pcs s _ _).2.2.1).trans h.sender
    · rw [(clientStep_frame cfg _ received).2.1, (note_pcs s _ _).2.2.1]
      exact h.sender
  | sendtocli =>
    cases hstep
    obtain ⟨l, hnote⟩ := note_frame s .sender s.sender.touches
    rw [hnote]
    exact sendStep_idle (s := { s with touched := l }) ⟨h.owned.sound, h.owned.nodup, h.owned.lt⟩
      h.unsent h.sender
  | kthreadStop t =>
    cases hstep
    exact h.sender

theorem tidy_plain {l : Label} (h : Tidy s) (hl : l.isIrq = false)
    (hkeep : s.finishes cfg l = false) (hstep : step cfg s l = some s') : Tidy s' := by
  have hm := step_move hstep
  rw [hkeep] at hm
  have hp := step_plain h.scanned hl hstep
  refine ⟨hm.owned h.owned, ((hm.change h.owned).length h.complete).mpr rfl,
    hm.unsent h.owned h.unsent, sender_step h hstep, ?_, ?_, ?_, ?_⟩
  · exact fun d => (hp.rings d).2.2 (h.scanned d)
  · intro d hin
    rw [hp.calls, hp.nextResp]
    exact h.resp d ((hp.rings d).1 ▸ hin)
  · intro d hans
    rw [hp.calls]
    exact h.unpushed d ((hp.rings d).2.1 ▸ hans)
  · exact h.buffers.congr (h.uses_plain hp hm) hp.nextResp

/-! ### The handlers -/

theorem uses_setChrif {c : Chrif}
    (h : inCall c = true ∧ ((s.calls d).pushed = false ∨ answering c = true) ↔
      inCall (s.chrif d) = true ∧
        ((s.calls d).pushed = false ∨ answering (s.chrif d) = true)) (u : User) (b : Nat) :
    (s.setChrif d c).Uses u b ↔ s.Uses u b := by
  cases u with
  | task n => exact Iff.rfl
  | call d' =>
    by_cases hd : d' = d
    · subst hd
      simp only [State.Uses, State.setChrif_self]
      constructor
      · rintro ⟨hin, hresp, huse⟩
        obtain ⟨hin', huse'⟩ := h.mp ⟨hin, huse⟩
        exact ⟨hin', hresp, huse'⟩
      · rintro ⟨hin, hresp, huse⟩
        obtain ⟨hin', huse'⟩ := h.mpr ⟨hin, huse⟩
        exact ⟨hin', hresp, huse'⟩
    · simp only [State.Uses, State.setChrif_of_ne s c hd]
      exact Iff.rfl

theorem Tidy.update {c : Chrif} {k : Call} {n : Nat} (h : Tidy s) (d : Dom) (scanned : Scanned c)
    (resp : inCall c = true → k.resp < n) (unpushed : answering c = true → k.pushed = false)
    (hn : s.nextResp ≤ n) (d' : Dom) : Scanned (Function.update s.chrif d c d') ∧
      (inCall (Function.update s.chrif d c d') = true → (Function.update s.calls d k d').resp < n) ∧
      (answering (Function.update s.chrif d c d') = true →
        (Function.update s.calls d k d').pushed = false) := by
  by_cases hd : d' = d
  · subst hd
    rw [Function.update_self, Function.update_self]
    exact ⟨scanned, resp, unpushed⟩
  · rw [Function.update_of_ne hd, Function.update_of_ne hd]
    exact ⟨h.scanned d', fun hin => Nat.lt_of_lt_of_le (h.resp d' hin) hn, h.unpushed d'⟩

theorem tidy_setChrif {c : Chrif} (h : Tidy s) (scanned : Scanned c)
    (inside : inCall c = true → inCall (s.chrif d) = true)
    (unpushed : answering c = true → (s.calls d).pushed = false)
    (uses : inCall c = true ∧ ((s.calls d).pushed = false ∨ answering c = true) ↔
      inCall (s.chrif d) = true ∧
        ((s.calls d).pushed = false ∨ answering (s.chrif d) = true)) :
    Tidy (s.setChrif d c) := by
  have hupdate := h.update d scanned (fun hin => h.resp d (inside hin)) unpushed (Nat.le_refl _)
  rw [Function.update_eq_self] at hupdate
  exact ⟨⟨h.owned.sound, h.owned.nodup, h.owned.lt⟩, h.complete, h.unsent, h.sender,
    fun d' => (hupdate d').1, fun d' => (hupdate d').2.1, fun d' => (hupdate d').2.2,
    h.buffers.congr (uses_setChrif uses) rfl⟩

theorem tidy_enter {c : Chrif} (h : Tidy s) (scanned : Scanned c)
    (before : inCall (s.chrif d) = false) (inside : inCall c = true) :
    Tidy ((s.setChrif d c).enter d) := by
  have hchrif : ((s.setChrif d c).enter d).chrif = Function.update s.chrif d c := rfl
  have hcalls : ((s.setChrif d c).enter d).calls
      = Function.update s.calls d { resp := s.nextResp } := rfl
  have hupdate := h.update d scanned (fun _ => Nat.lt_succ_self s.nextResp) (fun _ => rfl)
    (k := { resp := s.nextResp }) (Nat.le_succ _)
  refine ⟨⟨h.owned.sound, h.owned.nodup, h.owned.lt⟩, h.complete, h.unsent, h.sender,
    fun d' => (hupdate d').1, fun d' => (hupdate d').2.1, fun d' => (hupdate d').2.2, ?_⟩
  apply h.buffers.enter (.call d)
  · intro b hu
    rw [State.Uses, before] at hu
    exact Bool.false_ne_true hu.1
  · intro b
    rw [State.Uses, hchrif, hcalls, Function.update_self, Function.update_self]
    constructor
    · exact fun hu => hu.2.1.symm
    · exact fun hb => ⟨inside, hb.symm, Or.inl rfl⟩
  · intro u b hne
    cases u with
    | task n => exact Iff.rfl
    | call d' =>
      have hd : d' ≠ d := fun heq => hne (congrArg User.call heq)
      rw [State.Uses, State.Uses, hchrif, hcalls, Function.update_of_ne hd,
        Function.update_of_ne hd]
  · rfl

theorem tidy_pushWrite {c : Chrif} {r rp : Nat} (h : Tidy s) (scanned : Scanned c)
    (pc : (s.chrif d).irq = .serve r rp) (write : (s.chrif d).operation r = .write)
    (idle : answering c = false) : Tidy ((s.setChrif d c).pushWrite cfg d r) := by
  have hanswers : answering (s.chrif d) = true := by simp [answering, pc, write]
  have hin : inCall (s.chrif d) = true := by rw [inCall, pc]
  have hchrif : ((s.setChrif d c).pushWrite cfg d r).chrif = Function.update s.chrif d c := rfl
  have hcalls : ((s.setChrif d c).pushWrite cfg d r).calls
      = Function.update s.calls d { s.calls d with pushed := true } := rfl
  have htasks : ((s.setChrif d c).pushWrite cfg d r).tasks
      = Function.update s.tasks s.nextTask (.native d r (s.calls d).resp) := rfl
  have hm : Move s ((s.setChrif d c).pushWrite cfg d r) false :=
    .make (if cfg.devOn then .native else .remote) rfl rfl rfl rfl (by split <;> decide)
  have hheld : ((s.setChrif d c).pushWrite cfg d r).held.Perm (s.nextTask :: s.held) := by
    rcases hm.held h.owned h.sender with ⟨-, hnext⟩ | ⟨hheld, -⟩
    · exact absurd hnext (Nat.succ_ne_self s.nextTask)
    · exact hheld
  have hfresh : s.nextTask ∉ s.held := fun hn => h.owned.fresh (List.mem_append_left _ hn)
  have hupdate := h.update d scanned (fun _ => h.resp d hin)
    (fun hans => Bool.noConfusion (idle.symm.trans hans))
    (k := { s.calls d with pushed := true }) (Nat.le_refl _)
  refine ⟨hm.owned h.owned, ((hm.change h.owned).length h.complete).mpr rfl,
    hm.unsent h.owned h.unsent, h.sender,
    fun d' => (hupdate d').1, fun d' => (hupdate d').2.1, fun d' => (hupdate d').2.2, ?_⟩
  apply h.buffers.hand (.call d) (.task s.nextTask) (s.calls d).resp
  · intro b
    rw [State.Uses]
    constructor
    · exact fun hu => hu.2.1.symm
    · exact fun hb => ⟨hin, hb.symm, Or.inr hanswers⟩
  · intro b hu
    rw [State.Uses, hchrif, hcalls, Function.update_self, Function.update_self, idle] at hu
    rcases hu.2.2 with hpushed | hans
    · cases hpushed
    · cases hans
  · exact fun b hu => hfresh hu.1
  · intro b
    rw [State.Uses, hheld.mem_iff, htasks, Function.update_self]
    constructor
    · rintro ⟨-, d', r', heq⟩
      cases heq
      rfl
    · rintro rfl
      exact ⟨List.mem_cons_self, d, r, rfl⟩
  · intro u b hne hne'
    cases u with
    | call d' =>
      have hd : d' ≠ d := fun heq => hne (congrArg User.call heq)
      rw [State.Uses, State.Uses, hchrif, hcalls, Function.update_of_ne hd,
        Function.update_of_ne hd]
    | task n =>
      have hn : n ≠ s.nextTask := fun heq => hne' (congrArg User.task heq)
      rw [State.Uses, State.Uses, hheld.mem_iff, htasks, Function.update_of_ne hn, List.mem_cons,
        or_iff_right hn]
  · rfl

theorem tidy_irq (h : Tidy s) (hkeep : Keeps cfg s (.irq d env)) :
    Tidy (s.irqStep cfg d env) := by
  have hscan : Scanned ((s.chrif d).irqStep cfg env) :=
    scanned_irqStep (h.scanned d) env
  have hcall := irqStep_call cfg (s.chrif d) env
  simp only [Keeps] at hkeep
  simp only [State.irqStep]
  generalize (s.chrif d).irqStep cfg env = c at hscan hcall hkeep ⊢
  cases hcall with
  | enter before inside pc =>
    have hentered := tidy_enter h hscan before inside
    rcases pc with hpc | ⟨hpc, hfetch⟩
    · simp only [hpc]
      exact hentered
    · simp only [hpc, hfetch, if_true]
      exact hentered
  | leave rp pc outside left =>
    have hpushed : (s.calls d).pushed = true := by
      simp only [pc] at hkeep
      exact hkeep
    have hidle : answering (s.chrif d) = false := by rw [answering, pc]
    have hidle' : answering c = false := by
      unfold answering
      split
      · next r rp' hserve => exact absurd hserve (left r rp')
      · rfl
    simp only [pc]
    refine tidy_setChrif h hscan (fun hin => ?_) (fun hans => ?_) ?_
    · rw [outside] at hin
      cases hin
    · rw [hidle'] at hans
      cases hans
    · rw [outside, hpushed, hidle]
      simp
  | take rp r rp' pc inside serve operation =>
    have hbefore : inCall (s.chrif d) = true := by rw [inCall, pc]
    have hidle : answering (s.chrif d) = false := by rw [answering, pc]
    have hans : answering c = ((s.chrif d).operation r != .map) := by
      rw [answering, serve, operation]
    simp only [pc, serve] at hkeep
    simp only [pc]
    refine tidy_setChrif h hscan (fun _ => hbefore) (fun hanswers => ?_) ?_
    · rcases hkeep with hmap | hpushed
      · rw [hans, hmap] at hanswers
        cases hanswers
      · exact hpushed
    · rw [inside, hbefore, hidle, hans]
      rcases hkeep with hmap | hpushed
      · rw [hmap]
        rfl
      · simp [hpushed]
  | done r rp pc inside idle =>
    have hbefore : inCall (s.chrif d) = true := by rw [inCall, pc]
    simp only [pc]
    split
    · next hwrite => exact tidy_pushWrite h hscan pc hwrite idle
    · refine tidy_setChrif h hscan (fun _ => hbefore) (fun hans => ?_) ?_
      · rw [idle] at hans
        cases hans
      · rw [inside, hbefore, idle]
        have hunpushed := h.unpushed d
        simp only [true_and, Bool.false_eq_true, or_false]
        constructor
        · exact Or.inl
        · exact fun huse => huse.elim id hunpushed
  | stay inside before idle pc =>
    have hstay : Tidy (s.setChrif d c) := by
      refine tidy_setChrif h hscan (fun hin => inside ▸ hin) (fun hans => ?_) ?_
      · rw [idle] at hans
        cases hans
      · rw [inside, idle, before]
    rcases pc with hpc | hpc | ⟨hpc, hfetch⟩
    · simp only [hpc]
      exact hstay
    · simp only [hpc]
      exact hstay
    · simp only [hpc, hfetch, if_false]
      exact hstay

theorem tidy_step {l : Label} (h : Tidy s) (hkeep : Keeps cfg s l)
    (hstep : step cfg s l = some s') : Tidy s' := by
  cases l with
  | irq d env =>
    cases hstep
    exact tidy_irq h hkeep
  | _ => exact tidy_plain h rfl hkeep hstep

/-! ### What breaks it -/

theorem lost_step {l : Label} (h : Tidy s) (hlost : s.finishes cfg l = true)
    (hstep : step cfg s l = some s') : ¬ Conserved s' := by
  intro hcons
  have hm := step_move hstep
  rw [hlost] at hm
  have hlen := (hm.owned h.owned).tasks_iff.mp hcons.tasks
  exact Bool.noConfusion (((hm.change h.owned).length h.complete).mp hlen)

theorem leaked_of_leave {c : Chrif} (h : Tidy s) (inside : inCall (s.chrif d) = true)
    (pushed : (s.calls d).pushed = false) (outside : inCall c = false) :
    ¬ Conserved (s.setChrif d c) := by
  intro hcons
  have huses : s.Uses (.call d) (s.calls d).resp := ⟨inside, rfl, Or.inl pushed⟩
  obtain ⟨u, hu⟩ := hcons.used (s.calls d).resp (h.buffers.fresh _ _ huses)
  cases u with
  | task n =>
    have heq := h.buffers.alone (.call d) (.task n) _ huses hu
    cases heq
  | call d' =>
    by_cases hd : d' = d
    · subst hd
      rw [State.Uses, State.setChrif_self, outside] at hu
      exact Bool.false_ne_true hu.1
    · rw [State.Uses, State.setChrif_of_ne s c hd] at hu
      have heq := h.buffers.alone (.call d) (.call d') _ huses hu
      exact hd (User.call.inj heq).symm

/-- A further request of the call shares the buffer that a task has already. -/
theorem shared_of_take {c : Chrif} (h : Tidy s) (inside : inCall (s.chrif d) = true)
    (idle : answering (s.chrif d) = false) (pushed : (s.calls d).pushed = true)
    (inside' : inCall c = true) (answers : answering c = true) :
    ¬ Conserved (s.setChrif d c) := by
  intro hcons
  obtain ⟨u, hu⟩ := h.buffers.used (s.calls d).resp (h.resp d inside)
  have hne : u ≠ .call d := by
    rintro rfl
    rw [State.Uses, pushed, idle] at hu
    rcases hu.2.2 with hfalse | hfalse <;> cases hfalse
  have hcall : (s.setChrif d c).Uses (.call d) (s.calls d).resp := by
    rw [State.Uses, State.setChrif_self]
    exact ⟨inside', rfl, Or.inr answers⟩
  have hother : (s.setChrif d c).Uses u (s.calls d).resp := by
    cases u with
    | task n => exact hu
    | call d' =>
      have hd : d' ≠ d := fun heq => hne (congrArg User.call heq)
      rw [State.Uses, State.setChrif_of_ne s c hd]
      exact hu
  exact hne (hcons.alone _ _ _ hother hcall)

theorem broken_irq (h : Tidy s) (hkeep : ¬ Keeps cfg s (.irq d env)) :
    ¬ Conserved (s.irqStep cfg d env) := by
  have hcall := irqStep_call cfg (s.chrif d) env
  simp only [Keeps] at hkeep
  simp only [State.irqStep]
  generalize (s.chrif d).irqStep cfg env = c at hcall hkeep ⊢
  cases hcall with
  | enter before inside pc =>
    refine absurd ?_ hkeep
    rcases pc with hpc | ⟨hpc, -⟩ <;> simp only [hpc]
  | leave rp pc outside left =>
    have hpushed : (s.calls d).pushed = false := by
      simp only [pc] at hkeep
      simpa using hkeep
    simp only [pc]
    exact leaked_of_leave h (by rw [inCall, pc]) hpushed outside
  | take rp r rp' pc inside serve operation =>
    simp only [pc, serve, not_or, Bool.not_eq_false] at hkeep
    have hans : answering c = true := by
      rw [answering, serve]
      simp only [← operation]
      simpa using hkeep.1
    simp only [pc]
    exact shared_of_take h (by rw [inCall, pc]) (by rw [answering, pc]) hkeep.2 inside hans
  | done r rp pc =>
    refine absurd ?_ hkeep
    simp only [pc]
  | stay inside before idle pc =>
    refine absurd ?_ hkeep
    rcases pc with hpc | hpc | ⟨hpc, -⟩ <;> simp only [hpc]

theorem broken_step {l : Label} (h : Tidy s) (hkeep : ¬ Keeps cfg s l)
    (hstep : step cfg s l = some s') : ¬ Conserved s' := by
  cases l with
  | irq d env =>
    cases hstep
    exact broken_irq h hkeep
  | _ => exact lost_step h (by simpa only [Keeps, Bool.not_eq_false] using hkeep) hstep

end

/-- The objects are conserved in every state of a run exactly if no task of it comes to its
end and every call of `__do_char_io_op` hands its buffer to one WRITE alone. -/
theorem objects_conserved_iff (cfg : Config) (memory : Memory) (mapped : Dom → Nat)
    (ls : List Label) :
    Along (step cfg) (Keeps cfg) (start memory mapped) ls ↔
      ∀ ms, ms <+: ls → ∀ s, exec (step cfg) (start memory mapped) ms = some s → Conserved s :=
  along_iff_always (step_total cfg) tidy_step (fun h => h.conserved) broken_step
    (tidy_start memory mapped)

/-- A WRITE behind its MAP is served and answered: its task is left allocated and so is its
response buffer.
Of two WRITEs taken in one call both have the same buffer. -/
theorem answered_write_leaks :
    (∃ s, exec (step (serverConfig ⟨4096, 4096⟩ 32)) (start ⟨id, id⟩ fun _ => 0)
        (.put 0 .map :: .put 0 .write ::
          (List.replicate 7 (.irq 0 {}) ++ List.replicate 9 .reqthrd)) = some s ∧
      (s.chrif 0).responses = [1] ∧ s.held = [] ∧ s.live = [0] ∧ s.nextResp = 1 ∧
      ¬ Conserved s) ∧
    ∃ s, exec (step (serverConfig ⟨4096, 4096⟩ 32)) (start ⟨id, id⟩ fun _ => 0)
        (.put 0 .write :: .put 0 .write :: List.replicate 6 (.irq 0 {})) = some s ∧
      s.Uses (.task 0) 0 ∧ s.Uses (.task 1) 0 ∧ ¬ Conserved s := by
  refine ⟨⟨_, rfl, rfl, rfl, rfl, rfl, fun h => ?_⟩, ⟨_, rfl, ?_, ?_, fun h => ?_⟩⟩
  · exact absurd h.tasks.length_eq (by decide)
  · exact ⟨by decide, 0, 0, rfl⟩
  · exact ⟨by decide, 0, 1, rfl⟩
  · have heq := h.alone (.task 0) (.task 1) 0 ⟨by decide, 0, 0, rfl⟩ ⟨by decide, 0, 1, rfl⟩
    cases heq

end PdmaXen.NetDom0.Objects
