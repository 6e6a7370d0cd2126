import PdmaXen.NetDom0.Objects

/-!
# What a step does to the tasks

Every step leaves the tasks where they are, makes one, moves one between a queue and
a dispatcher, drops one or frees one. No task is ever in two places, in any run.
-/

namespace PdmaXen.NetDom0.Objects
set_option autoImplicit false
open Circular Machine

namespace State

def hands (s : State) : List Nat :=
  s.reqThrd.task.toList ++ (s.conThrd.task.toList ++ s.sender.task.toList)

/-- The tasks queued, submitted or being executed. -/
def held (s : State) : List Nat := s.queues.all ++ s.hands

def popsNext (s : State) : QueueId → Prop
  | .native => s.reqThrd = .pop
  | .sendtocli => s.sender = .pop
  | .remote => s.conThrd = .pop
  | .submit => s.conThrd = .recv

end State

def QueueId.consumer : QueueId → Thread
  | .native => .reqthrd
  | .sendtocli => .sender
  | .remote | .submit => .conthrd

/-- Only counters and completions of the rings change. -/
def RingsOnly (s s' : State) : Prop :=
  ∃ chrif, s' = { s with chrif } ∧
    ∀ d, (chrif d).irq = (s.chrif d).irq ∧ (chrif d).reqs = (s.chrif d).reqs ∧
      (chrif d).reqCons = (s.chrif d).reqCons

def State.finishes (cfg : Config) (s : State) : Label → Bool
  | .reqthrd => cfg.devOn && match s.reqThrd with
    | .respond _ => true
    | .remoteOp _ => cfg.passesRemote
    | _ => false
  | .conthrd _ => !cfg.devOn && match s.conThrd with
    | .waitResp _ => s.recvServerResp != 0
    | _ => false
  | _ => false

/-- The index says whether a task is lost. -/
inductive Move (s s' : State) : Bool → Prop where
  | quiet (queues : s'.queues = s.queues) (hands : s'.hands = s.hands)
      (nextTask : s'.nextTask = s.nextTask) (freed : s'.freed = s.freed) : Move s s' false
  | make (q : QueueId) (queues : s'.queues = s.queues.push q s.nextTask)
      (hands : s'.hands = s.hands) (nextTask : s'.nextTask = s.nextTask + 1)
      (freed : s'.freed = s.freed) (unsent : q ≠ .sendtocli) : Move s s' false
  | take (q : QueueId) (n : Nat) (front : s.queues.front q = some n)
      (queues : s'.queues = s.queues.pop q) (hands : s'.hands.Perm (n :: s.hands))
      (nextTask : s'.nextTask = s.nextTask) (freed : s'.freed = s.freed)
      (here : s.popsNext q) (left : ¬ s'.popsNext q) : Move s s' false
  | miss (q : QueueId) (front : s.queues.front q = none)
      (queues : s'.queues = s.queues.pop q) (hands : s'.hands = s.hands)
      (nextTask : s'.nextTask = s.nextTask) (freed : s'.freed = s.freed)
      (here : s.popsNext q) (left : ¬ s'.popsNext q) : Move s s' false
  | give (q : QueueId) (n : Nat) (queues : s'.queues = s.queues.push q n)
      (hands : s.hands.Perm (n :: s'.hands)) (nextTask : s'.nextTask = s.nextTask)
      (freed : s'.freed = s.freed) (unsent : q ≠ .sendtocli) : Move s s' false
  | free (n : Nat) (queues : s'.queues = s.queues) (hands : s.hands.Perm (n :: s'.hands))
      (nextTask : s'.nextTask = s.nextTask) (freed : s'.freed = s.freed ++ [n])
      (sender : s.sender.task = some n) : Move s s' false
  | drop (n : Nat) (queues : s'.queues = s.queues) (hands : s.hands.Perm (n :: s'.hands))
      (nextTask : s'.nextTask = s.nextTask) (freed : s'.freed = s.freed) : Move s s' true
  | replace (q : QueueId) (n : Nat) (queues : s'.queues = s.queues.push q s.nextTask)
      (hands : s.hands.Perm (n :: s'.hands)) (nextTask : s'.nextTask = s.nextTask + 1)
      (freed : s'.freed = s.freed) : Move s s' true

section
variable {cfg : Config} {s s' : State} {q : QueueId} {n : Nat}

theorem hands_req {pc : ReqPc} {n : Nat} (h : s.reqThrd = pc) (hn : pc.task = some n) :
    s.hands = n :: (s.conThrd.task.toList ++ s.sender.task.toList) := by
  rw [State.hands, h, hn]
  rfl

theorem hands_con {pc : ConPc} {n : Nat} (h : s.conThrd = pc) (hn : pc.task = some n) :
    s.hands.Perm (n :: (s.reqThrd.task.toList ++ s.sender.task.toList)) := by
  rw [State.hands, h, hn]
  exact List.perm_middle

theorem hands_sender {pc : SenderPc} {n : Nat} (h : s.sender = pc) (hn : pc.task = some n) :
    s.hands.Perm (n :: (s.reqThrd.task.toList ++ s.conThrd.task.toList)) := by
  rw [State.hands, h, hn, ← List.append_assoc]
  exact List.perm_append_singleton n _

theorem ringsOnly_setChrif {d : Dom} {c : Chrif} (irq : c.irq = (s.chrif d).irq)
    (reqs : c.reqs = (s.chrif d).reqs) (reqCons : c.reqCons = (s.chrif d).reqCons) :
    RingsOnly s (s.setChrif d c) := by
  refine ⟨_, rfl, fun d' => ?_⟩
  by_cases hd : d' = d
  · subst hd
    rw [Function.update_self]
    exact ⟨irq, reqs, reqCons⟩
  · rw [Function.update_of_ne hd]
    exact ⟨rfl, rfl, rfl⟩

theorem respond_rings (s : State) (n : Nat) : RingsOnly s (s.respond n) := by
  unfold State.respond
  cases s.tasks n with
  | native d r b => exact ringsOnly_setChrif rfl rfl rfl
  | remote => exact ⟨s.chrif, rfl, fun _ => ⟨rfl, rfl, rfl⟩⟩

theorem completeWaitser_rings (s : State) (n : Nat) : RingsOnly s (s.completeWaitser n) := by
  unfold State.completeWaitser
  cases s.tasks n with
  | native d r b => exact ringsOnly_setChrif rfl rfl rfl
  | remote => exact ⟨s.chrif, rfl, fun _ => ⟨rfl, rfl, rfl⟩⟩

theorem waitser_rings (h : s.waitser n = some s') : RingsOnly s s' := by
  unfold State.waitser at h
  cases hn : s.tasks n with
  | native d r b =>
    simp only [hn] at h
    split at h
    · cases h
    · cases h
      exact ringsOnly_setChrif rfl rfl rfl
  | remote =>
    simp only [hn] at h
    cases h

theorem reqStep_move (cfg : Config) (s : State) :
    Move s (s.reqStep cfg) (s.finishes cfg .reqthrd) := by
  unfold State.reqStep State.finishes
  split
  · next hdev =>
    rw [show cfg.devOn = false by simpa using hdev]
    exact .quiet rfl rfl rfl rfl
  · next hdev =>
    rw [show cfg.devOn = true by simpa using hdev, Bool.true_and]
    have hquiet : ∀ pc : ReqPc, pc.task = s.reqThrd.task →
        Move s { s with reqThrd := pc } false := by
      intro pc hpc
      refine .quiet rfl ?_ rfl rfl
      simp only [State.hands, hpc]
    cases hpc : s.reqThrd with
    | wait =>
      simp only
      split
      · exact hquiet _ (by rw [hpc]; rfl)
      · exact .quiet rfl rfl rfl rfl
    | pop =>
      cases hfront : s.queues.front .native with
      | none =>
        refine .miss .native hfront rfl ?_ rfl rfl hpc ReqPc.noConfusion
        simp only [State.hands, State.pop, hpc]
        rfl
      | some n =>
        refine .take .native n hfront rfl ?_ rfl rfl hpc ?_
        · simp only [State.hands, State.pop, hpc]
          cases s.tasks n <;> exact List.Perm.refl _
        · simp only [State.popsNext]
          cases s.tasks n <;> exact ReqPc.noConfusion
    | writeResp n stage =>
      simp only
      split
      · exact hquiet _ (by rw [hpc]; rfl)
      · cases stage <;> exact hquiet _ (by rw [hpc]; rfl)
    | readData n =>
      simp only
      split <;> exact hquiet _ (by rw [hpc]; rfl)
    | respond n =>
      obtain ⟨chrif, heq, -⟩ := respond_rings s n
      simp only [heq]
      refine .drop n rfl ?_ rfl rfl
      rw [hands_req hpc rfl]
      exact List.Perm.refl _
    | remoteOp n =>
      simp only
      split
      · next hpass =>
        rw [hpass]
        refine .replace .sendtocli n rfl ?_ rfl rfl
        rw [hands_req hpc rfl]
        exact List.Perm.refl _
      · next hpass =>
        rw [show cfg.passesRemote = false by simpa using hpass]
        exact hquiet _ (by rw [hpc]; rfl)
    | dead n => exact .quiet rfl rfl rfl rfl

theorem clientStep_move (received : Bool) (hdev : cfg.devOn = false) :
    Move s (s.clientStep cfg received) (s.finishes cfg (.conthrd received)) := by
  unfold State.clientStep State.finishes
  rw [hdev, Bool.not_false, Bool.true_and]
  have hquiet : ∀ pc : ConPc, pc.task = s.conThrd.task →
      Move s { s with conThrd := pc } false := by
    intro pc hpc
    refine .quiet rfl ?_ rfl rfl
    simp only [State.hands, hpc]
  cases hpc : s.conThrd with
  | wait =>
    simp only
    split
    · exact hquiet _ (by rw [hpc]; rfl)
    · exact .quiet rfl rfl rfl rfl
  | pop =>
    cases hfront : s.queues.front .remote with
    | none =>
      refine .miss .remote hfront rfl ?_ rfl rfl hpc ConPc.noConfusion
      simp only [State.hands, State.pop, hpc]
      rfl
    | some n =>
      refine .take .remote n hfront rfl ?_ rfl rfl hpc ConPc.noConfusion
      simp only [State.hands, State.pop, hpc]
      exact List.perm_middle
  | writeResp n stage =>
    simp only
    split
    · exact hquiet _ (by rw [hpc]; rfl)
    · cases stage <;> exact hquiet _ (by rw [hpc]; rfl)
  | waitSer n =>
    cases hwait : s.waitser n with
    | none =>
      simp only [hwait]
      exact .quiet rfl rfl rfl rfl
    | some t =>
      obtain ⟨chrif, rfl, -⟩ := waitser_rings hwait
      simp only [hwait]
      refine .quiet rfl ?_ rfl rfl
      simp only [State.hands, hpc]
      rfl
  | send n => exact hquiet _ (by rw [hpc]; rfl)
  | submit n =>
    exact .give .submit n rfl (hands_con hpc rfl) rfl rfl QueueId.noConfusion
  | recv =>
    cases hfront : s.queues.front .submit with
    | none =>
      refine .miss .submit hfront rfl ?_ rfl rfl hpc ConPc.noConfusion
      simp only [State.hands, State.pop, hpc]
      rfl
    | some n =>
      refine .take .submit n hfront rfl ?_ rfl rfl hpc ConPc.noConfusion
      simp only [State.hands, State.pop, hpc]
      exact List.perm_middle
  | recvmsg n =>
    obtain ⟨chrif, heq, -⟩ := completeWaitser_rings s n
    simp only [heq]
    split
    · refine .quiet rfl ?_ rfl rfl
      simp only [State.hands, hpc]
      rfl
    · exact .quiet rfl rfl rfl rfl
  | waitResp n =>
    simp only
    split
    · next hzero =>
      rw [show (s.recvServerResp != 0) = false by simpa using hzero]
      exact .quiet rfl rfl rfl rfl
    · next hzero =>
      rw [show (s.recvServerResp != 0) = true by simpa using hzero]
      exact .drop n rfl (hands_con hpc rfl) rfl rfl
  | dead n => exact .quiet rfl rfl rfl rfl

theorem conStep_move (cfg : Config) (s : State) (received : Bool) :
    Move s (s.conStep cfg received) (s.finishes cfg (.conthrd received)) := by
  unfold State.conStep State.recvmsgFromClient
  split
  · next hdev =>
    rw [State.finishes, hdev]
    simp only [Bool.not_true, Bool.false_and]
    split
    · exact .make .native rfl rfl rfl rfl QueueId.noConfusion
    · exact .quiet rfl rfl rfl rfl
  · next hdev => exact clientStep_move received (by simpa using hdev)

theorem sendStep_move (s : State) : Move s s.sendStep false := by
  unfold State.sendStep
  cases hpc : s.sender with
  | wait =>
    simp only
    split
    · refine .quiet rfl ?_ rfl rfl
      simp only [State.hands, hpc]
      rfl
    · exact .quiet rfl rfl rfl rfl
  | pop =>
    cases hfront : s.queues.front .sendtocli with
    | none =>
      refine .miss .sendtocli hfront rfl ?_ rfl rfl hpc SenderPc.noConfusion
      simp only [State.hands, State.pop, hpc]
      rfl
    | some n =>
      refine .take .sendtocli n hfront rfl ?_ rfl rfl hpc SenderPc.noConfusion
      refine (hands_sender rfl rfl).trans ?_
      simp only [State.hands, State.pop, hpc]
      exact (List.Perm.of_eq (by simp [SenderPc.task])).cons n
  | send n =>
    refine .free n rfl ?_ rfl rfl (by rw [hpc]; rfl)
    refine (hands_sender hpc rfl).trans ?_
    exact (List.Perm.of_eq (by simp [State.hands, State.kfreeTask, SenderPc.task])).cons n
  | dead => exact .quiet rfl rfl rfl rfl

theorem irqStep_move (cfg : Config) (s : State) (d : Dom) (env : IrqEnv) :
    Move s (s.irqStep cfg d env) false := by
  simp only [State.irqStep]
  cases hpc : (s.chrif d).irq with
  | serve r rp =>
    simp only
    split
    · exact .make (if cfg.devOn then .native else .remote) rfl rfl rfl rfl (by split <;> decide)
    · exact .quiet rfl rfl rfl rfl
  | finalCheck =>
    simp only
    split <;> exact .quiet rfl rfl rfl rfl
  | _ => exact .quiet rfl rfl rfl rfl

/-! ## One place for each task -/

namespace State

def known (s : State) : List Nat := s.held ++ s.freed

end State

/-- The queues are sound, and no task is in two places or freed twice. -/
structure Owned (s : State) : Prop where
  sound : s.queues.Sound
  nodup : s.known.Nodup
  lt : ∀ n ∈ s.known, n < s.nextTask

theorem owned_start (memory : Memory) (mapped : Dom → Nat) : Owned (start memory mapped) where
  sound := Queues.sound_init memory
  nodup := List.nodup_nil
  lt := by
    intro n hn
    cases hn

theorem Owned.fresh (h : Owned s) : s.nextTask ∉ s.known := fun hmem => Nat.lt_irrefl _ (h.lt _ hmem)

theorem Owned.not_queued (h : Owned s) (hn : n ∈ s.hands) : n ∉ s.queues.all := by
  intro hmem
  have hnodup := (List.nodup_append.mp h.nodup).1
  exact (List.nodup_append.mp hnodup).2.2 n hmem n hn rfl

inductive Change (s s' : State) : Bool → Prop where
  | same (known : s'.known.Perm s.known) (nextTask : s'.nextTask = s.nextTask) : Change s s' false
  | new (known : s'.known.Perm (s.nextTask :: s.known))
      (nextTask : s'.nextTask = s.nextTask + 1) : Change s s' false
  | lost (n : Nat) (known : s.known.Perm (n :: s'.known)) (nextTask : s'.nextTask = s.nextTask) :
      Change s s' true
  | swapped (n : Nat) (known : (n :: s'.known).Perm (s.nextTask :: s.known))
      (nextTask : s'.nextTask = s.nextTask + 1) : Change s s' true

theorem count_known (s : State) (x : Nat) :
    s.known.count x = s.queues.all.count x + s.hands.count x + s.freed.count x := by
  simp only [State.known, State.held, List.count_append]

theorem Move.change {lossy : Bool} (h : Owned s) (hm : Move s s' lossy) :
    Change s s' lossy := by
  cases hm with
  | quiet queues hands nextTask freed =>
    refine .same (List.perm_iff_count.mpr fun x => ?_) nextTask
    rw [count_known, count_known, queues, hands, freed]
  | make q queues hands nextTask freed =>
    refine .new (List.perm_iff_count.mpr fun x => ?_) nextTask
    have hall := (h.sound.all_push q s.nextTask).count_eq x
    simp only [List.count_cons, count_known, queues, hands, freed] at hall ⊢
    omega
  | take q n front queues hands nextTask freed here left =>
    refine .same (List.perm_iff_count.mpr fun x => ?_) nextTask
    have hall := (h.sound.all_pop front).count_eq x
    have hhands := hands.count_eq x
    simp only [List.count_cons, count_known, queues, freed] at hall hhands ⊢
    omega
  | miss q front queues hands nextTask freed here left =>
    refine .same (List.perm_iff_count.mpr fun x => ?_) nextTask
    rw [count_known, count_known, queues, hands, freed, h.sound.all_miss front]
  | give q n queues hands nextTask freed =>
    refine .same (List.perm_iff_count.mpr fun x => ?_) nextTask
    have hall := (h.sound.all_push q n).count_eq x
    have hhands := hands.count_eq x
    simp only [List.count_cons, count_known, queues, freed] at hall hhands ⊢
    omega
  | drop n queues hands nextTask freed =>
    refine .lost n (List.perm_iff_count.mpr fun x => ?_) nextTask
    have hhands := hands.count_eq x
    simp only [List.count_cons, count_known, queues, freed] at hhands ⊢
    omega
  | replace q n queues hands nextTask freed =>
    refine .swapped n (List.perm_iff_count.mpr fun x => ?_) nextTask
    have hall := (h.sound.all_push q s.nextTask).count_eq x
    have hhands := hands.count_eq x
    simp only [List.count_cons, count_known, queues, freed] at hall hhands ⊢
    omega
  | free n queues hands nextTask freed =>
    refine .same (List.perm_iff_count.mpr fun x => ?_) nextTask
    have hhands := hands.count_eq x
    simp only [List.count_cons, List.count_append, List.count_nil, count_known, queues,
      freed] at hhands ⊢
    omega

theorem Move.sound {lossy : Bool} (h : Owned s) (hm : Move s s' lossy) : s'.queues.Sound := by
  have hfresh : s.nextTask ∉ s.queues.all := by
    intro hmem
    exact h.fresh (List.mem_append_left _ (List.mem_append_left _ hmem))
  cases hm with
  | quiet queues | drop n queues | free n queues =>
    rw [queues]
    exact h.sound
  | make q queues | replace q n queues =>
    rw [queues]
    exact h.sound.push q hfresh
  | take q n front queues | miss q front queues =>
    rw [queues]
    exact h.sound.pop q
  | give q n queues hands =>
    rw [queues]
    exact h.sound.push q (h.not_queued (hands.mem_iff.mpr List.mem_cons_self))

theorem Move.owned {lossy : Bool} (h : Owned s) (hm : Move s s' lossy) : Owned s' := by
  refine ⟨hm.sound h, ?_, ?_⟩
  · have hnew : (s.nextTask :: s.known).Nodup := List.nodup_cons.mpr ⟨h.fresh, h.nodup⟩
    cases hm.change h with
    | same known => exact known.nodup_iff.mpr h.nodup
    | new known => exact known.nodup_iff.mpr hnew
    | lost n known => exact (List.nodup_cons.mp (known.nodup_iff.mp h.nodup)).2
    | swapped n known => exact (List.nodup_cons.mp (known.nodup_iff.mpr hnew)).2
  · intro x hx
    have hnew : ∀ y ∈ s.nextTask :: s.known, y < s.nextTask + 1 := by
      intro y hy
      rcases List.mem_cons.mp hy with rfl | hy
      · exact Nat.lt_succ_self _
      · exact Nat.lt_succ_of_lt (h.lt y hy)
    cases hm.change h with
    | same known nextTask =>
      rw [nextTask]
      exact h.lt x (known.mem_iff.mp hx)
    | new known nextTask =>
      rw [nextTask]
      exact hnew x (known.mem_iff.mp hx)
    | lost n known nextTask =>
      rw [nextTask]
      exact h.lt x (known.mem_iff.mpr (List.mem_cons_of_mem n hx))
    | swapped n known nextTask =>
      rw [nextTask]
      exact hnew x (known.mem_iff.mp (List.mem_cons_of_mem n hx))

end

section
variable {cfg : Config} {s s' : State}

theorem note_frame (s : State) (t : Thread) (touches : Bool) :
    ∃ l, s.note t touches = { s with touched := l } := by
  unfold State.note
  split
  · exact ⟨_, rfl⟩
  · exact ⟨s.touched, rfl⟩

theorem move_of_note {t : Thread} {touches lossy : Bool}
    (h : Move (s.note t touches) s' lossy) : Move s s' lossy := by
  obtain ⟨l, hnote⟩ := note_frame s t touches
  rw [hnote] at h
  cases h with
  | quiet queues hands nextTask freed => exact .quiet queues hands nextTask freed
  | make q queues hands nextTask freed unsent =>
    exact .make q queues hands nextTask freed unsent
  | take q n front queues hands nextTask freed here left =>
    exact .take q n front queues hands nextTask freed here left
  | miss q front queues hands nextTask freed here left =>
    exact .miss q front queues hands nextTask freed here left
  | give q n queues hands nextTask freed unsent =>
    exact .give q n queues hands nextTask freed unsent
  | free n queues hands nextTask freed sender => exact .free n queues hands nextTask freed sender
  | drop n queues hands nextTask freed => exact .drop n queues hands nextTask freed
  | replace q n queues hands nextTask freed => exact .replace q n queues hands nextTask freed

theorem finishes_note (s : State) (t : Thread) (touches : Bool) (l : Label) :
    (s.note t touches).finishes cfg l = s.finishes cfg l := by
  obtain ⟨_, hnote⟩ := note_frame s t touches
  rw [hnote]
  cases l <;> rfl

theorem step_move {l : Label} (h : step cfg s l = some s') :
    Move s s' (s.finishes cfg l) := by
  cases l with
  | put d op =>
    cases h
    exact .quiet rfl rfl rfl rfl
  | irq d env =>
    cases h
    exact irqStep_move cfg s d env
  | reqthrd =>
    cases h
    have hmove := reqStep_move cfg (s.note .reqthrd (cfg.devOn && s.reqThrd.touches))
    rw [finishes_note] at hmove
    exact move_of_note hmove
  | conthrd received =>
    cases h
    have hmove := conStep_move cfg (s.note .conthrd (!cfg.devOn && s.conThrd.touches)) received
    rw [finishes_note] at hmove
    exact move_of_note hmove
  | sendtocli =>
    cases h
    exact move_of_note (sendStep_move _)
  | kthreadStop t =>
    cases h
    exact .quiet rfl rfl rfl rfl

theorem step_owned {l : Label} (hs : Owned s) (h : step cfg s l = some s') : Owned s' :=
  (step_move h).owned hs

end

end PdmaXen.NetDom0.Objects
