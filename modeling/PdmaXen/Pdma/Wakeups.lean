import PdmaXen.Pdma.Counting

/-!
# Nobody sleeps through a wake-up

A call is asleep until somebody takes its entry off the queue. The interrupt and
the stop loop wake whom they have work for; a failed copy and a stop that gives
up wake nobody, and those are the steps that can leave a sleeper behind.
-/

namespace PdmaXen.Pdma
set_option autoImplicit false
open Pool

def RdPc.sleeping : RdPc → Bool
  | asleep w => !w.woken
  | _ => false

def WtPc.sleeping : WtPc → Bool
  | asleep w => !w.woken
  | _ => false

/-- A wait entry nobody has woken is on the queue. -/
def RdPc.queued : RdPc → Bool
  | prepared w | asleep w => w.woken || w.onQueue
  | _ => true

def WtPc.queued : WtPc → Bool
  | prepared w | asleep w => w.woken || w.onQueue
  | _ => true

def IsrPc.wakesRd : IsrPc → Bool
  | wakeRd _ => true
  | _ => false

def IsrPc.wakesWt : IsrPc → Bool
  | wakeRd wtToo => wtToo
  | wakeWt => true
  | _ => false

/-- The stop has still to wake `rdque`, now or in a later round. -/
def CtlPc.wakesRd : CtlPc → Bool
  | stopDisable _ | stopReset _ | stopWakeRd _ _ => true
  | stopWakeWt _ n | stopCheck _ n => n < maxWait
  | _ => false

def CtlPc.wakesWt : CtlPc → Bool
  | stopDisable _ | stopReset _ | stopWakeRd _ _ | stopWakeWt _ _ => true
  | stopCheck _ n => n < maxWait
  | _ => false

def CtlPc.stopping : CtlPc → Bool
  | stopReset _ | stopWakeRd _ _ | stopWakeWt _ _ | stopCheck _ _ => true
  | _ => false

/-- Not in the last round of a stop. -/
def CtlPc.early : CtlPc → Bool
  | stopWakeRd _ n | stopWakeWt _ n | stopCheck _ n => n < maxWait
  | _ => true

theorem CtlPc.wakesRd_of_stopping {pc : CtlPc} (h : pc.stopping = true) (he : pc.early = true) :
    pc.wakesRd = true := by
  cases pc <;> simp_all [stopping, early, wakesRd]

theorem CtlPc.wakesWt_of_stopping {pc : CtlPc} (h : pc.stopping = true) (he : pc.early = true) :
    pc.wakesWt = true := by
  cases pc <;> simp_all [stopping, early, wakesWt]

theorem RdPc.passed_of_sleeping {pc : RdPc} (h : pc.sleeping = true) : pc.passed = true := by
  cases pc <;> simp_all [sleeping, passed, inside]

theorem WtPc.passed_of_sleeping {pc : WtPc} (h : pc.sleeping = true) : pc.passed = true := by
  cases pc <;> simp_all [sleeping, passed, inside]

theorem Wait.woken_wake {w : Wait} (h : (w.woken || w.onQueue) = true) : w.wake.woken = true := by
  unfold wake
  split <;> simp_all

theorem RdPc.sleeping_wake {pc : RdPc} (h : pc.queued = true) :
    (pc.mapWait Wait.wake).sleeping = false := by
  cases pc with
  | asleep w => simp [mapWait, sleeping, Wait.woken_wake h]
  | _ => rfl

theorem WtPc.sleeping_wake {pc : WtPc} (h : pc.queued = true) :
    (pc.mapWait Wait.wake).sleeping = false := by
  cases pc with
  | asleep w => simp [mapWait, sleeping, Wait.woken_wake h]
  | _ => rfl

theorem RdPc.queued_wake {pc : RdPc} (h : pc.queued = true) :
    (pc.mapWait Wait.wake).queued = true := by
  cases pc with
  | prepared w | asleep w => simp [mapWait, queued, Wait.woken_wake h]
  | _ => rfl

theorem WtPc.queued_wake {pc : WtPc} (h : pc.queued = true) :
    (pc.mapWait Wait.wake).queued = true := by
  cases pc with
  | prepared w | asleep w => simp [mapWait, queued, Wait.woken_wake h]
  | _ => rfl

/-- A reader falls asleep only where it has just found `rd_pending` empty. -/
theorem RdNext.sleeping {g : Geometry} {d : Dev} {count : Nat} {pc pc' : RdPc} {n : Int}
    (h : RdNext g d count pc pc' n) (hs : pc'.sleeping = true) :
    pc.sleeping = true ∨ (∃ w, pc = .prepared w) ∧ d.rd.pending = [] := by
  cases h with
  | sleep w empty => exact .inr ⟨⟨w, rfl⟩, empty⟩
  | asleep w => exact .inl hs
  | _ => cases hs

theorem WtNext.sleeping {g : Geometry} {d : Dev} {count : Nat} {pc pc' : WtPc} {n : Int}
    (h : WtNext g d count pc pc' n) (hs : pc'.sleeping = true) :
    pc.sleeping = true ∨ (∃ w, pc = .prepared w) ∧ d.wt.free = [] := by
  cases h with
  | sleep w empty => exact .inr ⟨⟨w, rfl⟩, empty⟩
  | asleep w => exact .inl hs
  | _ => cases hs

theorem RdNext.queued {g : Geometry} {d : Dev} {count : Nat} {pc pc' : RdPc} {n : Int}
    (h : RdNext g d count pc pc' n) (hq : pc.queued = true) : pc'.queued = true := by
  cases h with
  | sleep w | asleep w => exact hq
  | _ => rfl

theorem WtNext.queued {g : Geometry} {d : Dev} {count : Nat} {pc pc' : WtPc} {n : Int}
    (h : WtNext g d count pc pc' n) (hq : pc.queued = true) : pc'.queued = true := by
  cases h with
  | sleep w | asleep w => exact hq
  | _ => rfl

namespace Dev

/-- Who sleeps after the step slept before, or is the one that stepped and has just seen an
empty list. -/
theorem RdStepped.slept {g : Geometry} {d d' : Dev} {p q : Pid} (h : RdStepped g d p d')
    (hq : (d'.readers q).pc.sleeping = true) :
    (d.readers q).pc.sleeping = true ∨ (∃ w, (d.readers p).pc = .prepared w) ∧ d.rd.pending = [] := by
  by_cases hqp : q = p
  · subst q
    exact h.next.sleeping hq
  · rw [h.others q hqp] at hq
    exact .inl hq

theorem WtStepped.slept {g : Geometry} {d d' : Dev} {p q : Pid} (h : WtStepped g d p d')
    (hq : (d'.writers q).pc.sleeping = true) :
    (d.writers q).pc.sleeping = true ∨ (∃ w, (d.writers p).pc = .prepared w) ∧ d.wt.free = [] := by
  by_cases hqp : q = p
  · subst q
    exact h.next.sleeping hq
  · rw [h.others q hqp] at hq
    exact .inl hq

theorem RdStepped.queued {g : Geometry} {d d' : Dev} {p q : Pid} (h : RdStepped g d p d')
    (hq : (d.readers q).pc.queued = true) : (d'.readers q).pc.queued = true := by
  by_cases hqp : q = p
  · subst q
    exact h.next.queued hq
  · rw [h.others q hqp]
    exact hq

theorem WtStepped.queued {g : Geometry} {d d' : Dev} {p q : Pid} (h : WtStepped g d p d')
    (hq : (d.writers q).pc.queued = true) : (d'.writers q).pc.queued = true := by
  by_cases hqp : q = p
  · subst q
    exact h.next.queued hq
  · rw [h.others q hqp]
    exact hq

def Due (isr : IsrPc → Bool) (ctl : CtlPc → Bool) (d : Dev) : Prop :=
  (∃ p, isr (d.isrs p) = true) ∨ ∃ p, ctl (d.ctls p) = true

def DueRd (d : Dev) : Prop := d.Due IsrPc.wakesRd CtlPc.wakesRd
def DueWt (d : Dev) : Prop := d.Due IsrPc.wakesWt CtlPc.wakesWt

variable {g : Geometry} {d d' : Dev} {p : Pid} {isr : IsrPc → Bool} {ctl : CtlPc → Bool}

theorem Due.congr (h : d.Due isr ctl) (hi : d'.isrs = d.isrs) (hc : d'.ctls = d.ctls) :
    d'.Due isr ctl := by
  unfold Due
  rw [hi, hc]
  exact h

theorem Due.setIsr {pc : IsrPc} (h : d.Due isr ctl) (hp : isr (d.isrs p) = true → isr pc = true) :
    (d.setIsr p pc).Due isr ctl := by
  rcases h with ⟨q, hq⟩ | hc
  · refine .inl ⟨q, ?_⟩
    by_cases hqp : q = p
    · subst q
      simpa [Dev.setIsr] using hp hq
    · simpa [Dev.setIsr, Function.update_of_ne hqp] using hq
  · exact .inr hc

theorem Due.setCtl {pc : CtlPc} (h : d.Due isr ctl) (hp : ctl (d.ctls p) = true → ctl pc = true) :
    (d.setCtl p pc).Due isr ctl := by
  rcases h with hi | ⟨q, hq⟩
  · exact .inl hi
  · refine .inr ⟨q, ?_⟩
    by_cases hqp : q = p
    · subst q
      simpa [Dev.setCtl] using hp hq
    · simpa [Dev.setCtl, Function.update_of_ne hqp] using hq

theorem due_setIsr_self {pc : IsrPc} (h : isr pc = true) : (d.setIsr p pc).Due isr ctl :=
  .inl ⟨p, by simpa [Dev.setIsr] using h⟩

end Dev

open Dev

def Label.isStartStop : Label → Bool
  | .ctlCall _ op => op = .start || op = .stop
  | _ => true

/-- The steps that leave nobody behind. A failed copy gives its buffer back while
nobody is asleep for it or a wake-up is due; a stop does not return, nor enter
its last round, while `rw_cnt` is not zero; a start does not refill `wt_free`
under a sleeping writer. -/
def Heedful (d : Dev) : Label → Prop
  | .rdStep p _ _ =>
    match (d.readers p).pc with
    | .requeue _ => (∀ q, (d.readers q).pc.sleeping = false) ∨ d.DueRd
    | _ => True
  | .wtStep p _ _ =>
    match (d.writers p).pc with
    | .requeue _ => (∀ q, (d.writers q).pc.sleeping = false) ∨ d.DueWt
    | _ => True
  | .ctlStep p resetOk =>
    match d.ctls p with
    | .stopReset _ => resetOk = true ∨ d.rwCnt = 0
    | .stopCheck _ n => n + 1 < maxWait ∨ d.rwCnt = 0
    | .startInit _ => (∀ q, (d.writers q).pc.sleeping = false) ∨ d.DueWt
    | _ => True
  | _ => True

/-- While DMA is off somebody is still stopping or nobody is past the gate. -/
structure Gated (d : Dev) : Prop where
  counted : Counted d.inside d.rwCnt
  noInit : ∀ p, d.ctls p ≠ .ctrlInit
  early : ∀ p, (d.ctls p).early = true
  gate : d.dmaEnable = false → d.Quiet ∨ ∃ p, (d.ctls p).stopping = true

/-- Whoever sleeps has nothing to take, or is about to be woken. -/
structure Heard (d : Dev) : Prop where
  rdQueued : ∀ p, (d.readers p).pc.queued = true
  wtQueued : ∀ p, (d.writers p).pc.queued = true
  rd : ∀ p, (d.readers p).pc.sleeping = true → d.rd.pending = [] ∨ d.DueRd
  wt : ∀ p, (d.writers p).pc.sleeping = true → d.wt.free = [] ∨ d.DueWt

variable {g : Geometry} {d d' : Dev} {bn bn' : Bounce} {l : Label} {p : Pid}

theorem awake_of_zero (h : Counted d.inside 0) (q : Pid) :
    (d.readers q).pc.sleeping = false ∧ (d.writers q).pc.sleeping = false := by
  have hquiet := quiet_of_counted_zero h
  refine ⟨?_, ?_⟩
  · by_contra hsl
    have hp := RdPc.passed_of_sleeping (by simpa using hsl)
    simp [hquiet.rd q] at hp
  · by_contra hsl
    have hp := WtPc.passed_of_sleeping (by simpa using hsl)
    simp [hquiet.wt q] at hp

theorem Gated.setCtl {pc : CtlPc} (hc : Counted d.inside d.rwCnt)
    (hno : ∀ q, q ≠ p → d.ctls q ≠ .ctrlInit) (hearly : ∀ q, q ≠ p → (d.ctls q).early = true)
    (hpno : pc ≠ .ctrlInit) (hpearly : pc.early = true)
    (hgate : d.dmaEnable = false →
      d.Quiet ∨ pc.stopping = true ∨ ∃ q, q ≠ p ∧ (d.ctls q).stopping = true) :
    Gated (d.setCtl p pc) := by
  refine ⟨hc, fun q => ?_, fun q => ?_, fun hoff => ?_⟩
  · by_cases hqp : q = p
    · subst q
      simpa [Dev.setCtl] using hpno
    · simpa [Dev.setCtl, Function.update_of_ne hqp] using hno q hqp
  · by_cases hqp : q = p
    · subst q
      simpa [Dev.setCtl] using hpearly
    · simpa [Dev.setCtl, Function.update_of_ne hqp] using hearly q hqp
  · rcases hgate hoff with hq | hp | ⟨q, hqp, hq⟩
    · exact .inl ⟨hq.rd, hq.wt⟩
    · exact .inr ⟨p, by simpa [Dev.setCtl] using hp⟩
    · exact .inr ⟨q, by simpa [Dev.setCtl, Function.update_of_ne hqp] using hq⟩

theorem Gated.other (h : Gated d) (hp : (d.ctls p).stopping = false) (hoff : d.dmaEnable = false) :
    d.Quiet ∨ ∃ q, q ≠ p ∧ (d.ctls q).stopping = true := by
  rcases h.gate hoff with hq | ⟨q, hq⟩
  · exact .inl hq
  · refine .inr ⟨q, ?_, hq⟩
    rintro rfl
    simp [hp] at hq

theorem Stopper.next_ne_ctrlInit (k : Stopper) : k.next ≠ .ctrlInit := by
  cases k <;> simp [next]

theorem Stopper.early_next (k : Stopper) : k.next.early = true := by
  cases k <;> rfl

theorem Gated.moves {pc : CtlPc} (h : Gated d) (hpno : pc ≠ .ctrlInit) (hpearly : pc.early = true)
    (hgate : d.dmaEnable = false →
      d.Quiet ∨ pc.stopping = true ∨ ∃ q, q ≠ p ∧ (d.ctls q).stopping = true) :
    Gated (d.setCtl p pc) :=
  .setCtl h.counted (fun q _ => h.noInit q) (fun q _ => h.early q) hpno hpearly hgate

theorem Gated.stop_ends {k : Stopper} (h : Gated d) (hzero : d.rwCnt = 0) :
    Gated (d.setCtl p k.next) :=
  h.moves k.next_ne_ctrlInit k.early_next fun _ => .inl (quiet_of_counted_zero (hzero ▸ h.counted))

theorem ctlStep_gated {resetOk : Bool} (hheed : Heedful d (.ctlStep p resetOk)) (h : Gated d) :
    Gated (d.ctlStep g p resetOk) := by
  have hno := h.noInit p
  have hearly := h.early p
  have hother := h.other (p := p)
  unfold Heedful at hheed
  unfold ctlStep
  cases hpc : d.ctls p <;> rw [hpc] at hno hearly hother <;> simp only [hpc] at hheed <;> dsimp only
  case idle => exact h
  case ctrlInit => exact absurd rfl hno
  case stopDisable k =>
    exact .setCtl h.counted (fun q _ => h.noInit q) (fun q _ => h.early q) (by simp) rfl
      fun _ => .inr (.inl rfl)
  case stopReset k =>
    split
    · exact h.moves (by simp) rfl fun _ => .inr (.inl rfl)
    · rename_i hfail
      exact h.stop_ends (hheed.resolve_left hfail)
  case stopWakeRd k n =>
    exact .setCtl (h.counted.congr fun x => congrFun (inside_wakeRdque d) x)
      (fun q _ => h.noInit q) (fun q _ => h.early q) (by simp) hearly fun _ => .inr (.inl rfl)
  case stopWakeWt k n =>
    exact .setCtl (h.counted.congr fun x => congrFun (inside_wakeWtque d) x)
      (fun q _ => h.noInit q) (fun q _ => h.early q) (by simp) hearly fun _ => .inr (.inl rfl)
  case stopCheck k n =>
    split
    · rename_i hbusy
      have hlt := hheed.resolve_right hbusy
      rw [if_neg (by omega)]
      exact h.moves (by simp) (by simpa [CtlPc.early] using hlt) fun _ => .inr (.inl rfl)
    · rename_i hzero
      exact h.stop_ends (by simpa using hzero)
  case startTest k =>
    split
    · exact h.moves (by simp) rfl fun hoff => (hother rfl hoff).imp_right .inr
    · exact h.moves (by simp) rfl fun hoff => (hother rfl hoff).imp_right .inr
  case startInit k =>
    rw [listInit_eq]
    exact .setCtl h.counted (fun q _ => h.noInit q) (fun q _ => h.early q) (by simp) rfl
      fun hoff => by cases hoff
  case startSubmit k =>
    obtain ⟨n, st, _, _, _, heq⟩ := tryToSubmitReadNolock_eq g d
    rw [heq]
    refine .setCtl h.counted (fun q _ => h.noInit q) (fun q _ => h.early q) (by simp) rfl
      fun hoff => ?_
    rcases hother rfl hoff with hq | hq
    · exact .inl ⟨hq.rd, hq.wt⟩
    · exact .inr (.inr hq)
  case startReset | configSize =>
    exact h.moves (by simp) rfl fun hoff => (hother rfl hoff).imp_right .inr
  case freePool =>
    refine .setCtl h.counted (fun q _ => h.noInit q) (fun q _ => h.early q) (by simp) rfl
      fun hoff => ?_
    rcases hother rfl hoff with hq | hq
    · exact .inl ⟨hq.rd, hq.wt⟩
    · exact .inr (.inr hq)

theorem step_gated (hops : l.isStartStop = true) (hheed : Heedful d l)
    (hstep : step g bn d l = some (bn', d')) (hf : Fifos g d) (h : Gated d) : Gated d' := by
  cases hctl : l.isCtl with
  | false =>
    obtain ⟨hon, hctls⟩ := step_control hctl hf hstep
    refine ⟨step_counted hctl hf hstep h.counted, ?_, ?_, fun hoff => ?_⟩
    · rw [hctls]
      exact h.noInit
    · rw [hctls]
      exact h.early
    · rw [hon] at hoff
      rw [hctls]
      exact (h.gate hoff).imp_left (step_quiet hctl hf hstep hoff)
  | true =>
    cases step_cases hstep with
    | ctlCall p op hidle =>
      have hp : (d.ctls p).stopping = false := by rw [hidle]; rfl
      refine h.moves ?_ ?_ fun hoff => (h.other hp hoff).imp_right .inr
      · rintro hentry
        cases op <;> simp [CtlOp.entry, Label.isStartStop] at hentry hops
      · cases op <;> rfl
    | ctlStep p resetOk => exact ctlStep_gated hheed h
    | _ => cases hctl

theorem Heard.congr (h : Heard d) (hr : d'.readers = d.readers) (hw : d'.writers = d.writers)
    (hpending : d'.rd.pending = d.rd.pending) (hfree : d'.wt.free = d.wt.free)
    (hrd : d.DueRd → d'.DueRd) (hwt : d.DueWt → d'.DueWt) : Heard d' := by
  refine ⟨by rw [hr]; exact h.rdQueued, by rw [hw]; exact h.wtQueued, fun p hp => ?_, fun p hp => ?_⟩
  · rw [hr] at hp
    rw [hpending]
    exact (h.rd p hp).imp_right hrd
  · rw [hw] at hp
    rw [hfree]
    exact (h.wt p hp).imp_right hwt

theorem Heard.wakeRdque (h : Heard d) : Heard d.wakeRdque := by
  refine ⟨fun p => RdPc.queued_wake (h.rdQueued p), h.wtQueued, fun p hp => ?_, h.wt⟩
  have hawake := RdPc.sleeping_wake (h.rdQueued p)
  exact absurd hp (by simpa [Dev.wakeRdque] using hawake)

theorem Heard.wakeWtque (h : Heard d) : Heard d.wakeWtque := by
  refine ⟨h.rdQueued, fun p => WtPc.queued_wake (h.wtQueued p), h.rd, fun p hp => ?_⟩
  have hawake := WtPc.sleeping_wake (h.wtQueued p)
  exact absurd hp (by simpa [Dev.wakeWtque] using hawake)

theorem Heard.setCtl {pc : CtlPc} (h : Heard d)
    (hrd : (d.ctls p).wakesRd = true → pc.wakesRd = true ∨ ∀ q, (d.readers q).pc.sleeping = false)
    (hwt : (d.ctls p).wakesWt = true → pc.wakesWt = true ∨ ∀ q, (d.writers q).pc.sleeping = false) :
    Heard (d.setCtl p pc) := by
  refine ⟨h.rdQueued, h.wtQueued, fun q hq => ?_, fun q hq => ?_⟩
  · refine (h.rd q hq).imp_right fun hdue => hdue.setCtl fun hw => (hrd hw).resolve_right ?_
    exact fun hall => by simp [hall q, Dev.setCtl] at hq
  · refine (h.wt q hq).imp_right fun hdue => hdue.setCtl fun hw => (hwt hw).resolve_right ?_
    exact fun hall => by simp [hall q, Dev.setCtl] at hq

theorem Heard.setIsr {pc : IsrPc} (h : Heard d)
    (hrd : (d.isrs p).wakesRd = true → pc.wakesRd = true ∨ ∀ q, (d.readers q).pc.sleeping = false)
    (hwt : (d.isrs p).wakesWt = true → pc.wakesWt = true ∨ ∀ q, (d.writers q).pc.sleeping = false) :
    Heard (d.setIsr p pc) := by
  refine ⟨h.rdQueued, h.wtQueued, fun q hq => ?_, fun q hq => ?_⟩
  · refine (h.rd q hq).imp_right fun hdue => hdue.setIsr fun hw => (hrd hw).resolve_right ?_
    exact fun hall => by simp [hall q, Dev.setIsr] at hq
  · refine (h.wt q hq).imp_right fun hdue => hdue.setIsr fun hw => (hwt hw).resolve_right ?_
    exact fun hall => by simp [hall q, Dev.setIsr] at hq

theorem rdStep_heard {copyOk sig : Bool} (hheed : Heedful d (.rdStep p copyOk sig)) (h : Heard d) :
    Heard (d.rdStep g bn p copyOk sig).2 := by
  obtain ⟨_, _, _, _, _, _, heq⟩ := rdStep_frame g bn d p copyOk sig
  have hstepped := rdStep_stepped g bn d p copyOk sig
  have hwriters : (d.rdStep g bn p copyOk sig).2.writers = d.writers := by rw [heq]
  have hfree : (d.rdStep g bn p copyOk sig).2.wt = d.wt := by rw [heq]
  have hdueRd : d.DueRd → (d.rdStep g bn p copyOk sig).2.DueRd := fun hdue =>
    Due.congr hdue (by rw [heq]) (by rw [heq])
  have hdueWt : d.DueWt → (d.rdStep g bn p copyOk sig).2.DueWt := fun hdue =>
    Due.congr hdue (by rw [heq]) (by rw [heq])
  refine ⟨fun q => hstepped.queued (h.rdQueued q), fun q => ?_, fun q hq => ?_, fun q hq => ?_⟩
  · rw [hwriters]
    exact h.wtQueued q
  · have hslept := hstepped.slept hq
    have hbefore : d.rd.pending = [] ∨ d.DueRd := hslept.elim (h.rd q) fun hnew => .inl hnew.2
    cases rdStep_move g bn d p copyOk sig with
    | stay rd _ =>
      rw [rd]
      exact hbefore.imp_right hdueRd
    | take b rest pending _ _ _ =>
      refine .inr (hdueRd (hbefore.resolve_left ?_))
      rw [pending]
      exact List.cons_ne_nil b rest
    | requeue b pc _ _ _ =>
      refine .inr (hdueRd ?_)
      simp only [Heedful, pc] at hheed
      refine hheed.resolve_left fun hall => ?_
      rcases hslept with hold | ⟨⟨w, hw⟩, _⟩
      · simp [hall q] at hold
      · simp [pc] at hw
    | release b _ rd _ =>
      rw [rd]
      exact hbefore.imp_right hdueRd
    | submit rd _ =>
      obtain ⟨n, st, _, _, _, hsub⟩ := tryToSubmitReadNolock_eq g d
      rw [rd, hsub]
      exact hbefore.imp_right hdueRd
  · rw [hwriters] at hq
    rw [hfree]
    exact (h.wt q hq).imp_right hdueWt

theorem wtStep_heard {copied : Option Bytes} {sig : Bool} (hheed : Heedful d (.wtStep p copied sig))
    (h : Heard d) : Heard (d.wtStep g p copied sig) := by
  obtain ⟨_, _, _, _, _, heq⟩ := wtStep_frame g d p copied sig
  have hstepped := wtStep_stepped g d p copied sig
  have hreaders : (d.wtStep g p copied sig).readers = d.readers := by rw [heq]
  have hpending : (d.wtStep g p copied sig).rd = d.rd := by rw [heq]
  have hdueRd : d.DueRd → (d.wtStep g p copied sig).DueRd := fun hdue =>
    Due.congr hdue (by rw [heq]) (by rw [heq])
  have hdueWt : d.DueWt → (d.wtStep g p copied sig).DueWt := fun hdue =>
    Due.congr hdue (by rw [heq]) (by rw [heq])
  refine ⟨fun q => ?_, fun q => hstepped.queued (h.wtQueued q), fun q hq => ?_, fun q hq => ?_⟩
  · rw [hreaders]
    exact h.rdQueued q
  · rw [hreaders] at hq
    rw [hpending]
    exact (h.rd q hq).imp_right hdueRd
  · have hslept := hstepped.slept hq
    have hbefore : d.wt.free = [] ∨ d.DueWt := hslept.elim (h.wt q) fun hnew => .inl hnew.2
    cases wtStep_move g d p copied sig with
    | take b rest free _ _ _ _ =>
      refine .inr (hdueWt (hbefore.resolve_left ?_))
      rw [free]
      exact List.cons_ne_nil b rest
    | requeue b pc _ _ _ _ =>
      refine .inr (hdueWt ?_)
      simp only [Heedful, pc] at hheed
      refine hheed.resolve_left fun hall => ?_
      rcases hslept with hold | ⟨⟨w, hw⟩, _⟩
      · simp [hall q] at hold
      · simp [pc] at hw
    | stay _ wt _ _ | post _ _ _ wt _ _ | pend _ _ _ wt _ _ | lose _ _ _ wt _ _ =>
      rw [wt]
      exact hbefore.imp_right hdueWt

theorem isrStep_heard {blks : List Bytes} {n : Nat} (hm : IsrMove g d p blks n d') (h : Heard d) :
    Heard d' := by
  cases hm with
  | idle _ eq =>
    rw [eq]
    exact h
  | off pc _ eq =>
    rw [eq]
    exact h.setIsr (by simp [pc, IsrPc.wakesRd]) (by simp [pc, IsrPc.wakesWt])
  | wakeRd wtToo pc eq =>
    rw [eq]
    refine h.wakeRdque.setIsr (fun _ => .inr fun q => RdPc.sleeping_wake (h.rdQueued q)) fun hw => ?_
    have hw : wtToo = true := by simpa [Dev.wakeRdque, pc, IsrPc.wakesWt] using hw
    exact .inl (by simp [hw, IsrPc.wakesWt])
  | wakeWt pc eq =>
    rw [eq]
    refine h.wakeWtque.setIsr (fun hw => ?_) fun _ => .inr fun q => WtPc.sleeping_wake (h.wtQueued q)
    simp [Dev.wakeWtque, pc, IsrPc.wakesRd] at hw
  | notify pc _ _ _ _ k m mem st _ _ _ _ _ _ _ _ _ eq =>
    rw [eq]
    have hrdOld : (d.isrs p).wakesRd = false := by rw [pc]; rfl
    have hwtOld : (d.isrs p).wakesWt = false := by rw [pc]; rfl
    refine ⟨h.rdQueued, h.wtQueued, fun q hq => ?_, fun q hq => ?_⟩
    · by_cases hblks : blks.length = 0
      · refine (h.rd q hq).imp (fun hnil => ?_) fun hdue => ?_
        · simp [Dev.setIsr, hnil, hblks]
        · exact Due.setIsr hdue fun hw => by simp [hrdOld] at hw
      · exact .inr (due_setIsr_self (by rw [if_pos hblks]; rfl))
    · by_cases hn : n = 0
      · refine (h.wt q hq).imp (fun hnil => ?_) fun hdue => ?_
        · simp [Dev.setIsr, hnil, hn]
        · exact Due.setIsr hdue fun hw => by simp [hwtOld] at hw
      · refine .inr (due_setIsr_self ?_)
        split <;> simp [IsrPc.wakesWt, hn]

theorem ctlStep_heard {resetOk : Bool} (hheed : Heedful d (.ctlStep p resetOk)) (hg : Gated d)
    (h : Heard d) : Heard (d.ctlStep g p resetOk) := by
  have hno := hg.noInit p
  have hzero : d.rwCnt = 0 → ∀ q, (d.readers q).pc.sleeping = false ∧
      (d.writers q).pc.sleeping = false := fun hz => awake_of_zero (hz ▸ hg.counted)
  have hends : ∀ {k : Stopper}, d.rwCnt = 0 → Heard (d.setCtl p k.next) := fun hz =>
    h.setCtl (fun _ => .inr fun q => (hzero hz q).1) (fun _ => .inr fun q => (hzero hz q).2)
  unfold Heedful at hheed
  unfold ctlStep
  cases hpc : d.ctls p <;> rw [hpc] at hno <;> simp only [hpc] at hheed <;> dsimp only
  case idle => exact h
  case ctrlInit => exact absurd rfl hno
  case stopDisable k =>
    refine Heard.setCtl (h.congr rfl rfl rfl rfl (fun hdue => Due.congr hdue rfl rfl)
      (fun hdue => Due.congr hdue rfl rfl)) ?_ ?_ <;> exact fun _ => .inl rfl
  case stopReset k =>
    split
    · exact h.setCtl (fun _ => .inl rfl) (fun _ => .inl rfl)
    · rename_i hfail
      exact hends (hheed.resolve_left hfail)
  case stopWakeRd k n =>
    exact h.wakeRdque.setCtl (fun _ => .inr fun q => RdPc.sleeping_wake (h.rdQueued q))
      (fun _ => .inl rfl)
  case stopWakeWt k n =>
    refine h.wakeWtque.setCtl (fun hw => .inl ?_)
      (fun _ => .inr fun q => WtPc.sleeping_wake (h.wtQueued q))
    simpa [Dev.wakeWtque, hpc, CtlPc.wakesRd] using hw
  case stopCheck k n =>
    split
    · rename_i hbusy
      have hlt := hheed.resolve_right hbusy
      rw [if_neg (by omega)]
      exact h.setCtl (fun _ => .inl rfl) (fun _ => .inl rfl)
    · rename_i hz
      exact hends (by simpa using hz)
  case startTest k =>
    refine h.setCtl ?_ ?_ <;> simp [hpc, CtlPc.wakesRd, CtlPc.wakesWt]
  case startInit k =>
    rw [listInit_eq]
    refine ⟨h.rdQueued, h.wtQueued, fun q _ => .inl rfl, fun q hq => .inr ?_⟩
    have hdue := hheed.resolve_left fun hall => by simp [hall q, Dev.setCtl] at hq
    exact Due.setCtl (Due.congr hdue rfl rfl) (by simp [hpc, CtlPc.wakesWt])
  case startSubmit k =>
    obtain ⟨n, st, _, _, _, heq⟩ := tryToSubmitReadNolock_eq g d
    rw [heq]
    refine Heard.setCtl (h.congr rfl rfl rfl rfl (fun hdue => Due.congr hdue rfl rfl)
      (fun hdue => Due.congr hdue rfl rfl)) ?_ ?_ <;> simp [hpc, CtlPc.wakesRd, CtlPc.wakesWt]
  case startReset | configSize =>
    refine h.setCtl ?_ ?_ <;> simp [hpc, CtlPc.wakesRd, CtlPc.wakesWt]
  case freePool =>
    refine Heard.setCtl (h.congr rfl rfl rfl rfl (fun hdue => Due.congr hdue rfl rfl)
      (fun hdue => Due.congr hdue rfl rfl)) ?_ ?_ <;> simp [hpc, CtlPc.wakesRd, CtlPc.wakesWt]

theorem step_heard (hheed : Heedful d l) (hstep : step g bn d l = some (bn', d')) (hf : Fifos g d)
    (hg : Gated d) (h : Heard d) : Heard d' := by
  cases step_cases hstep with
  | rdCall p count nonblock hidle =>
    refine ⟨fun q => ?_, h.wtQueued, fun q hq => ?_, h.wt⟩
    · exact (pc_rdCall (f := RdPc.queued) hidle rfl count nonblock q).trans (h.rdQueued q)
    · exact h.rd q ((pc_rdCall (f := RdPc.sleeping) hidle rfl count nonblock q).symm.trans hq)
  | rdStep p copyOk sig => exact rdStep_heard hheed h
  | wtCall p count nonblock hidle =>
    refine ⟨h.rdQueued, fun q => ?_, h.rd, fun q hq => ?_⟩
    · exact (pc_wtCall (f := WtPc.queued) hidle rfl count nonblock q).trans (h.wtQueued q)
    · exact h.wt q ((pc_wtCall (f := WtPc.sleeping) hidle rfl count nonblock q).symm.trans hq)
  | wtStep p copied sig => exact wtStep_heard hheed h
  | isrCall p hidle => exact h.setIsr (by simp [hidle, IsrPc.wakesRd]) (by simp [hidle, IsrPc.wakesWt])
  | isrStep p blks n _ he => exact isrStep_heard (isrStep_move hf.rd hf.wt he) h
  | ctlCall p op hidle =>
    exact h.setCtl (by simp [hidle, CtlPc.wakesRd]) (by simp [hidle, CtlPc.wakesWt])
  | ctlStep p resetOk => exact ctlStep_heard hheed hg h

/-- In a heedful run of reads, writes, interrupts, starts and stops whoever is
asleep has nothing to take and DMA is on, or a wake-up is due. -/
theorem no_lost_wakeup {geo : Nat → Geometry} {i : Nat} {s t : Driver} {ls : List (Nat × Label)}
    (hinit : s.dev i = Dev.init (geo i)) (hops : ∀ l ∈ ls, l.1 = i → l.2.isStartStop = true)
    (hheed : Machine.Along (Driver.step geo) (fun s l => l.1 = i → Heedful (s.dev i) l.2) s ls)
    (hrun : Machine.exec (Driver.step geo) s ls = some t) :
    (∀ p, ((t.dev i).readers p).pc.sleeping = true →
        (t.dev i).rd.pending = [] ∧ (t.dev i).dmaEnable = true ∨ (t.dev i).DueRd) ∧
      ∀ p, ((t.dev i).writers p).pc.sleeping = true →
        (t.dev i).wt.free = [] ∧ (t.dev i).dmaEnable = true ∨ (t.dev i).DueWt := by
  have hstart : Fifos (geo i) (s.dev i) ∧ Gated (s.dev i) ∧ Heard (s.dev i) := by
    rw [hinit, Dev.init, ctrlInit, listInit_eq]
    refine ⟨⟨Side.fifo_empty, Side.fifo_empty⟩, ⟨.empty fun x => ?_, ?_, ?_, fun _ => .inl ?_⟩, ?_⟩
    · cases x <;> rfl
    · exact fun _ => CtlPc.noConfusion
    · exact fun _ => rfl
    · exact ⟨fun _ => rfl, fun _ => rfl⟩
    · exact ⟨fun _ => rfl, fun _ => rfl, fun _ h => (by cases h), fun _ h => (by cases h)⟩
  obtain ⟨-, hgated, hheard⟩ := Driver.invariant_along
    (I := fun d => Fifos (geo i) d ∧ Gated d ∧ Heard d)
    (C := fun _ d l => l.isStartStop = true ∧ Heedful d l)
    (fun h hC hstep => ⟨step_fifos hstep h.1, step_gated hC.1 hC.2 hstep h.1 h.2.1,
      step_heard hC.2 hstep h.1 h.2.1 h.2.2⟩)
    hstart (((Machine.along_of_forall hops).and hheed).mono fun _ _ h hi => ⟨h.1 hi, h.2 hi⟩) hrun
  -- with DMA off a sleeper is past the gate, so the stop that closed it is still at work
  have hoff : (t.dev i).dmaEnable = false → ¬ (t.dev i).Quiet →
      ∃ p, ((t.dev i).ctls p).stopping = true := fun hoff hq => (hgated.gate hoff).resolve_left hq
  refine ⟨fun p hp => ?_, fun p hp => ?_⟩
  · cases hon : (t.dev i).dmaEnable with
    | true => exact (hheard.rd p hp).imp_left fun hnil => ⟨hnil, rfl⟩
    | false =>
      obtain ⟨q, hq⟩ := hoff hon fun hquiet => absurd (hquiet.rd p) (by simp [RdPc.passed_of_sleeping hp])
      exact .inr (.inr ⟨q, CtlPc.wakesRd_of_stopping hq (hgated.early q)⟩)
  · cases hon : (t.dev i).dmaEnable with
    | true => exact (hheard.wt p hp).imp_left fun hnil => ⟨hnil, rfl⟩
    | false =>
      obtain ⟨q, hq⟩ := hoff hon fun hquiet => absurd (hquiet.wt p) (by simp [WtPc.passed_of_sleeping hp])
      exact .inr (.inr ⟨q, CtlPc.wakesWt_of_stopping hq (hgated.early q)⟩)

theorem no_lost_wakeup_failed_copy :
    let s : Driver := ⟨{}, fun _ => Dev.init smallCard⟩
    let ls : List (Nat × Label) :=
      [(0, .ctlCall 0 .start), (0, .ctlStep 0 true), (0, .ctlStep 0 true), (0, .ctlStep 0 true),
        (0, .wtCall 0 4096 false), (0, .wtStep 0 none false), (0, .wtStep 0 none false),
        (0, .wtStep 0 none false), (0, .wtStep 0 none false), (0, .wtStep 0 none false),
        (0, .wtStep 0 none false)]
    ∃ t, Machine.exec (Driver.step fun _ => smallCard) s ls = some t ∧
      (∀ p, ((t.dev 0).readers p).pc.sleeping = true →
        (t.dev 0).rd.pending = [] ∧ (t.dev 0).dmaEnable = true ∨ (t.dev 0).DueRd) ∧
      ∀ p, ((t.dev 0).writers p).pc.sleeping = true →
        (t.dev 0).wt.free = [] ∧ (t.dev 0).dmaEnable = true ∨ (t.dev 0).DueWt := by
  intro s ls
  refine Machine.exists_end _ (by decide) fun t hrun =>
    no_lost_wakeup (i := 0) rfl (by decide) ?_ hrun
  refine .cons rfl (fun _ => trivial) (.cons rfl (fun _ => trivial) (.cons rfl (fun _ => trivial)
    (.cons rfl (fun _ => .inl fun _ => rfl) (.cons rfl (fun _ => trivial)
    (.cons rfl (fun _ => trivial) (.cons rfl (fun _ => trivial) (.cons rfl (fun _ => trivial)
    (.cons rfl (fun _ => trivial) (.cons rfl (fun _ => trivial)
    (.cons rfl (fun _ => .inl fun q => ?_) trivial))))))))))
  cases q <;> rfl

/-- Writers 0 and 1 hold both buffers and writer 2 is asleep when the copy of
writer 0 fails: the buffer is free again and nobody will wake writer 2. -/
theorem failed_copy_wakes_nobody :
    ∃ t, Machine.exec (Driver.step fun _ => smallCard) ⟨{}, fun _ => Dev.init smallCard⟩
        ([(0, .ctlCall 0 .start)] ++ List.replicate 4 (0, .ctlStep 0 true) ++
          [(0, .wtCall 0 4096 false), (0, .wtCall 1 4096 false), (0, .wtCall 2 4096 false)] ++
          List.replicate 4 (0, .wtStep 0 none false) ++ List.replicate 4 (0, .wtStep 1 none false) ++
          List.replicate 6 (0, .wtStep 2 none false) ++
          List.replicate 2 (0, .wtStep 0 none false)) = some t ∧
      ((t.dev 0).writers 2).pc.sleeping = true ∧ (t.dev 0).wt.free ≠ [] ∧ ¬ (t.dev 0).DueWt := by
  refine Machine.exists_end_view _ (fun t => (((t.dev 0).writers 2).pc.sleeping, (t.dev 0).wt.free,
      (t.dev 0).isrs, (t.dev 0).ctls 0, fun q => (t.dev 0).ctls (q + 1)))
    (v := (true, [0], fun _ => .idle, .idle, fun _ => .idle)) rfl fun t _ hview => ?_
  simp only [Prod.mk.injEq] at hview
  obtain ⟨hsleep, hfree, hisrs, hctl, hctls⟩ := hview
  refine ⟨hsleep, by simp [hfree], ?_⟩
  rintro (⟨q, hq⟩ | ⟨q, hq⟩)
  · simp [hisrs, IsrPc.wakesWt] at hq
  · cases q with
    | zero => simp [hctl, CtlPc.wakesWt] at hq
    | succ q => simp [congrFun hctls q, CtlPc.wakesWt] at hq

end PdmaXen.Pdma
