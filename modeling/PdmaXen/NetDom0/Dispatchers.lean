import PdmaXen.NetDom0.ClientProgress
import PdmaXen.NetDom0.ObjectMoves

/-!
# The dispatchers and `kthread_stop`

A dispatcher finds its queue nonempty before it pops, and nobody else pops it. A stop
wakes it on an empty queue as well, and its loop goes on: it works on NULL, or pops
and serves on after the stop.
-/

namespace PdmaXen.NetDom0.Objects
set_option autoImplicit false
open Circular Machine

/-- The pops return the tasks in the order of their pushes and never NULL, no task that
is freed or being worked on is linked, none is both, and no stopped dispatcher has
touched a queue or a task. -/
structure Clean (s : State) : Prop where
  fed : ∀ q, s.queues.popped q <+: (s.queues.pushed q).map fun n => some (Ptr.element n)
  unlinked : ∀ n, n ∈ s.freed ∨ n ∈ s.hands →
    ∀ q, ¬ Linked s.queues.memory (.head q) (.element n)
  unfreed : ∀ n ∈ s.hands, n ∉ s.freed
  quiet : s.touched = []

def ReqPc.live : ReqPc → Bool
  | .dead _ => false
  | _ => true

def ConPc.live : ConPc → Bool
  | .waitSer _ | .dead _ => false
  | _ => true

def SenderPc.live : SenderPc → Bool
  | .dead => false
  | _ => true

def State.runs (cfg : Config) (s : State) : Thread → Bool
  | .reqthrd => cfg.devOn && s.reqThrd.live
  | .conthrd => !cfg.devOn && s.conThrd.live
  | .sender => s.sender.live

def NoLiveStop (cfg : Config) (s : State) : Label → Prop
  | .kthreadStop t => s.runs cfg t = false
  | _ => True

def Label.isStop : Label → Bool
  | .kthreadStop _ => true
  | _ => false

/-! ## The client never gets past the server -/

def ConPc.early : ConPc → Bool
  | .wait | .pop | .writeResp _ _ | .waitSer _ | .dead _ => true
  | _ => false

structure Early (s : State) : Prop where
  waitser : ∀ d, (s.chrif d).compWaitser = 0
  early : s.conThrd.early = true

section
variable {cfg : Config} {s s' : State}

theorem early_start (memory : Memory) (mapped : Dom → Nat) : Early (start memory mapped) := ⟨fun _ => rfl, rfl⟩

theorem waitser_setChrif (hs : ∀ d, (s.chrif d).compWaitser = 0) {d : Dom} {c : Chrif}
    (hc : c.compWaitser = 0) (d' : Dom) : ((s.setChrif d c).chrif d').compWaitser = 0 := by
  by_cases hd : d' = d
  · subst hd
    simpa [State.setChrif] using hc
  · simpa [State.setChrif, hd] using hs d'

theorem waitser_respond (hs : ∀ d, (s.chrif d).compWaitser = 0) (n : Nat) (d : Dom) :
    ((s.respond n).chrif d).compWaitser = 0 := by
  cases hn : s.tasks n with
  | native d' r b =>
    simp only [State.respond, hn]
    exact waitser_setChrif (c := (s.chrif d').makeResponse r) hs (hs d') d
  | remote =>
    simp only [State.respond, hn]
    exact hs d

theorem reqStep_frame (cfg : Config) (s : State) : (s.reqStep cfg).conThrd = s.conThrd ∧
    (s.reqStep cfg).sender = s.sender ∧ (s.reqStep cfg).stopped = s.stopped ∧
    (s.reqStep cfg).touched = s.touched := by
  unfold State.reqStep
  split
  · exact ⟨rfl, rfl, rfl, rfl⟩
  · cases s.reqThrd with
    | pop => cases s.queues.front .native <;> exact ⟨rfl, rfl, rfl, rfl⟩
    | respond n =>
      obtain ⟨chrif, heq, -⟩ := respond_rings s n
      simp only [heq, and_self]
    | dead n => exact ⟨rfl, rfl, rfl, rfl⟩
    | _ => simp only; split <;> exact ⟨rfl, rfl, rfl, rfl⟩

theorem clientStep_frame (cfg : Config) (s : State) (received : Bool) :
    (s.clientStep cfg received).reqThrd = s.reqThrd ∧
    (s.clientStep cfg received).sender = s.sender ∧
    (s.clientStep cfg received).stopped = s.stopped ∧
    (s.clientStep cfg received).touched = s.touched := by
  unfold State.clientStep
  cases s.conThrd with
  | pop => cases s.queues.front .remote <;> exact ⟨rfl, rfl, rfl, rfl⟩
  | recv => cases s.queues.front .submit <;> exact ⟨rfl, rfl, rfl, rfl⟩
  | waitSer n =>
    cases hwait : s.waitser n with
    | none => simp only [hwait, and_self]
    | some t =>
      obtain ⟨chrif, rfl, -⟩ := waitser_rings hwait
      simp only [hwait, and_self]
  | recvmsg n =>
    obtain ⟨chrif, heq, -⟩ := completeWaitser_rings s n
    simp only [heq]
    split <;> exact ⟨rfl, rfl, rfl, rfl⟩
  | send n | submit n | dead n => exact ⟨rfl, rfl, rfl, rfl⟩
  | _ => simp only; split <;> exact ⟨rfl, rfl, rfl, rfl⟩

theorem sendStep_frame (s : State) : s.sendStep.chrif = s.chrif ∧
    s.sendStep.reqThrd = s.reqThrd ∧ s.sendStep.conThrd = s.conThrd ∧
    s.sendStep.stopped = s.stopped ∧ s.sendStep.touched = s.touched := by
  unfold State.sendStep
  cases s.sender with
  | wait => simp only; split <;> exact ⟨rfl, rfl, rfl, rfl, rfl⟩
  | pop => cases s.queues.front .sendtocli <;> exact ⟨rfl, rfl, rfl, rfl, rfl⟩
  | _ => exact ⟨rfl, rfl, rfl, rfl, rfl⟩

theorem irqStep_frame (cfg : Config) (s : State) (d : Dom) (env : IrqEnv) :
    (s.irqStep cfg d env).chrif
      = Function.update s.chrif d ((s.chrif d).irqStep cfg env) ∧
    (s.irqStep cfg d env).reqThrd = s.reqThrd ∧
    (s.irqStep cfg d env).conThrd = s.conThrd ∧
    (s.irqStep cfg d env).sender = s.sender ∧
    (s.irqStep cfg d env).stopped = s.stopped ∧
    (s.irqStep cfg d env).touched = s.touched := by
  simp only [State.irqStep]
  cases (s.chrif d).irq with
  | serve r rp => simp only; split <;> exact ⟨rfl, rfl, rfl, rfl, rfl, rfl⟩
  | finalCheck => simp only; split <;> exact ⟨rfl, rfl, rfl, rfl, rfl, rfl⟩
  | _ => exact ⟨rfl, rfl, rfl, rfl, rfl, rfl⟩

theorem Early.of_eq (hs : Early s) (chrif : ∀ d, (s'.chrif d).compWaitser = 0)
    (conThrd : s'.conThrd = s.conThrd) : Early s' :=
  ⟨chrif, by rw [conThrd]; exact hs.early⟩

theorem early_reqStep (hs : Early s) : Early (s.reqStep cfg) := by
  refine hs.of_eq (fun d => ?_) (reqStep_frame cfg s).1
  unfold State.reqStep
  split
  · exact hs.waitser d
  · cases s.reqThrd with
    | pop => cases s.queues.front .native <;> exact hs.waitser d
    | respond n => exact waitser_respond hs.waitser n d
    | dead n => exact hs.waitser d
    | _ => simp only; split <;> exact hs.waitser d

theorem waitser_blocked (hs : Early s) (n : Nat) : s.waitser n = none := by
  unfold State.waitser
  cases s.tasks n with
  | native d r b => simp [hs.waitser d]
  | remote => rfl

theorem early_clientStep (hs : Early s) (received : Bool) :
    Early (s.clientStep cfg received) := by
  have hearly := hs.early
  unfold State.clientStep
  cases hpc : s.conThrd with
  | wait =>
    simp only
    split
    · exact ⟨hs.waitser, rfl⟩
    · exact hs
  | pop => cases s.queues.front .remote <;> exact ⟨hs.waitser, rfl⟩
  | writeResp n stage =>
    simp only
    split
    · exact ⟨hs.waitser, rfl⟩
    · cases stage <;> exact ⟨hs.waitser, rfl⟩
  | waitSer n =>
    simp only [waitser_blocked hs n]
    exact hs
  | dead n => exact hs
  | _ =>
    rw [hpc] at hearly
    cases hearly

theorem early_note (hs : Early s) (t : Thread) (b : Bool) : Early (s.note t b) := by
  obtain ⟨l, heq⟩ := note_frame s t b
  rw [heq]
  exact ⟨hs.waitser, hs.early⟩

theorem early_step {l : Label} (hs : Early s) (h : step cfg s l = some s') : Early s' := by
  have hnote := early_note hs
  cases l with
  | put d op =>
    cases h
    exact hs.of_eq (waitser_setChrif (c := { s.chrif d with reqs := (s.chrif d).reqs ++ [op] })
      hs.waitser (hs.waitser d)) rfl
  | irq d env =>
    cases h
    obtain ⟨hchrif, -, hcon, -⟩ := irqStep_frame cfg s d env
    refine hs.of_eq (fun d' => ?_) hcon
    rw [hchrif]
    exact waitser_setChrif hs.waitser ((compWaitser_irqStep cfg _ env).trans
      (hs.waitser d)) d'
  | reqthrd =>
    cases h
    exact early_reqStep (hnote _ _)
  | conthrd received =>
    cases h
    unfold State.conStep State.recvmsgFromClient
    split
    · split
      · exact ⟨(hnote _ _).waitser, (hnote _ _).early⟩
      · exact hnote _ _
    · exact early_clientStep (hnote _ _) received
  | sendtocli =>
    cases h
    obtain ⟨hchrif, -, hcon, -⟩ := sendStep_frame (s.note .sender s.sender.touches)
    refine (hnote _ _).of_eq (fun d => ?_) hcon
    rw [hchrif]
    exact (hnote _ _).waitser d
  | kthreadStop t =>
    cases h
    exact ⟨hs.waitser, hs.early⟩

/-! ## Stopped and still running -/

/-- A stop was asked of a running dispatcher, and either it runs on or it has touched a
queue or a task since. -/
def Overrun (cfg : Config) (s : State) : Prop :=
  s.touched ≠ [] ∨ ∃ t ∈ s.stopped, s.runs cfg t = true

theorem overrun_thread {t : Thread} (touches : Bool) (alive : touches = true → s.runs cfg t = true)
    (stopped : s'.stopped = s.stopped) (touched : s'.touched = (s.note t touches).touched)
    (others : ∀ t', t' ≠ t → s'.runs cfg t' = s.runs cfg t')
    (stays : s'.runs cfg t = true → s.runs cfg t = true)
    (goes : s.runs cfg t = true → s'.runs cfg t = true ∨ touches = true) :
    Overrun cfg s' ↔ Overrun cfg s := by
  unfold State.note at touched
  constructor
  · rintro (h | ⟨t', hstop, hruns⟩)
    · split at touched
      · next hnoted =>
        simp only [Bool.and_eq_true, State.shouldStop, decide_eq_true_iff] at hnoted
        exact Or.inr ⟨t, hnoted.2, alive hnoted.1⟩
      · exact Or.inl (touched ▸ h)
    · rw [stopped] at hstop
      refine Or.inr ⟨t', hstop, ?_⟩
      by_cases ht : t' = t
      · subst ht
        exact stays hruns
      · rw [← others t' ht]
        exact hruns
  · rintro (h | ⟨t', hstop, hruns⟩)
    · refine Or.inl ?_
      rw [touched]
      split
      · exact List.append_ne_nil_of_left_ne_nil h _
      · exact h
    · by_cases ht : t' = t
      · subst ht
        rcases goes hruns with hruns' | htouches
        · exact Or.inr ⟨t', stopped ▸ hstop, hruns'⟩
        · refine Or.inl ?_
          rw [touched, if_pos (by simp [htouches, State.shouldStop, hstop])]
          simp
      · refine Or.inr ⟨t', stopped ▸ hstop, ?_⟩
        rw [others t' ht]
        exact hruns

theorem overrun_of_eq (stopped : s'.stopped = s.stopped) (touched : s'.touched = s.touched)
    (reqThrd : s'.reqThrd = s.reqThrd) (conThrd : s'.conThrd = s.conThrd)
    (sender : s'.sender = s.sender) : Overrun cfg s' ↔ Overrun cfg s := by
  have hruns : ∀ t, s'.runs cfg t = s.runs cfg t := by
    intro t
    cases t <;> simp only [State.runs, reqThrd, conThrd, sender]
  simp only [Overrun, stopped, touched, hruns]

theorem note_pcs (s : State) (t : Thread) (b : Bool) : (s.note t b).reqThrd = s.reqThrd ∧
    (s.note t b).conThrd = s.conThrd ∧ (s.note t b).sender = s.sender ∧
    (s.note t b).stopped = s.stopped := by
  obtain ⟨l, heq⟩ := note_frame s t b
  rw [heq]
  exact ⟨rfl, rfl, rfl, rfl⟩

theorem reqStep_live (cfg : Config) (s : State) :
    ((s.reqStep cfg).reqThrd.live = true → s.reqThrd.live = true) ∧
    (s.reqThrd.live = true →
      (s.reqStep cfg).reqThrd.live = true ∨ (cfg.devOn && s.reqThrd.touches) = true) := by
  unfold State.reqStep
  split
  · exact ⟨id, Or.inl⟩
  · next hdev =>
    have hdev : cfg.devOn = true := by simpa using hdev
    cases hpc : s.reqThrd with
    | wait =>
      refine ⟨fun _ => rfl, fun _ => Or.inl ?_⟩
      simp only
      split
      · rfl
      · rw [hpc]
        rfl
    | dead n =>
      refine ⟨fun h => ?_, fun h => nomatch h⟩
      rw [hpc] at h
      exact h
    | _ => exact ⟨fun _ => rfl, fun _ => Or.inr (by rw [hdev]; rfl)⟩

theorem clientStep_live (cfg : Config) (received : Bool) (hs : Early s) :
    ((s.clientStep cfg received).conThrd.live = true → s.conThrd.live = true) ∧
    (s.conThrd.live = true →
      (s.clientStep cfg received).conThrd.live = true ∨ s.conThrd.touches = true) := by
  have hearly := hs.early
  unfold State.clientStep
  cases hpc : s.conThrd with
  | wait =>
    refine ⟨fun _ => rfl, fun _ => Or.inl ?_⟩
    simp only
    split
    · rfl
    · rw [hpc]
      rfl
  | waitSer n =>
    simp only [waitser_blocked hs n, hpc]
    exact ⟨id, Or.inl⟩
  | dead n =>
    simp only [hpc]
    exact ⟨id, Or.inl⟩
  | waitResp n =>
    rw [hpc] at hearly
    cases hearly
  | _ => exact ⟨fun _ => rfl, fun _ => Or.inr rfl⟩

theorem sendStep_live (s : State) :
    (s.sendStep.sender.live = true → s.sender.live = true) ∧
    (s.sender.live = true → s.sendStep.sender.live = true ∨ s.sender.touches = true) := by
  unfold State.sendStep
  cases hpc : s.sender with
  | wait =>
    refine ⟨fun _ => rfl, fun _ => Or.inl ?_⟩
    simp only
    split
    · rfl
    · rw [hpc]
      rfl
  | dead =>
    simp only [hpc]
    exact ⟨id, Or.inl⟩
  | _ => exact ⟨fun _ => rfl, fun _ => Or.inr rfl⟩

theorem overrun_reqStep (cfg : Config) (s : State) :
    Overrun cfg ((s.note .reqthrd (cfg.devOn && s.reqThrd.touches)).reqStep cfg) ↔
      Overrun cfg s := by
  generalize hb : (cfg.devOn && s.reqThrd.touches) = b
  obtain ⟨hreq, hcon, hsender, hstopped⟩ := note_pcs s .reqthrd b
  obtain ⟨hcon', hsender', hstopped', htouched'⟩ := reqStep_frame cfg (s.note .reqthrd b)
  obtain ⟨hstays, hgoes⟩ := reqStep_live cfg (s.note .reqthrd b)
  rw [hreq] at hstays hgoes
  rw [hb] at hgoes
  apply overrun_thread b ?_ (hstopped'.trans hstopped) htouched'
  · intro t ht
    cases t with
    | reqthrd => exact absurd rfl ht
    | conthrd => simp only [State.runs, hcon', hcon]
    | sender => simp only [State.runs, hsender', hsender]
  · intro hruns
    simp only [State.runs, Bool.and_eq_true] at hruns ⊢
    exact ⟨hruns.1, hstays hruns.2⟩
  · intro hruns
    simp only [State.runs, Bool.and_eq_true] at hruns ⊢
    exact (hgoes hruns.2).imp_left fun hlive => ⟨hruns.1, hlive⟩
  · intro htouches
    rw [← hb] at htouches
    simp only [State.runs, Bool.and_eq_true] at htouches ⊢
    refine ⟨htouches.1, ?_⟩
    cases hpc : s.reqThrd <;> rw [hpc] at htouches <;> first | rfl | cases htouches.2

theorem overrun_conStep (hs : Early s) (received : Bool) :
    Overrun cfg ((s.note .conthrd (!cfg.devOn && s.conThrd.touches)).conStep cfg received) ↔
      Overrun cfg s := by
  generalize hb : (!cfg.devOn && s.conThrd.touches) = b
  obtain ⟨hreq, hcon, hsender, hstopped⟩ := note_pcs s .conthrd b
  unfold State.conStep
  split
  · next hdev =>
    have hb' : b = false := by rw [← hb, hdev]; rfl
    subst hb'
    unfold State.recvmsgFromClient
    split <;> exact overrun_of_eq rfl rfl rfl rfl rfl
  · next hdev =>
    have hdev : cfg.devOn = false := by simpa using hdev
    have hearly := early_note hs .conthrd b
    obtain ⟨hreq', hsender', hstopped', htouched'⟩ :=
      clientStep_frame cfg (s.note .conthrd b) received
    obtain ⟨hstays, hgoes⟩ := clientStep_live cfg received hearly
    rw [hcon] at hstays hgoes
    apply overrun_thread b ?_ (hstopped'.trans hstopped) htouched'
    · intro t ht
      cases t with
      | reqthrd => simp only [State.runs, hreq', hreq]
      | conthrd => exact absurd rfl ht
      | sender => simp only [State.runs, hsender', hsender]
    · intro hruns
      simp only [State.runs, Bool.and_eq_true] at hruns ⊢
      exact ⟨hruns.1, hstays hruns.2⟩
    · intro hruns
      simp only [State.runs, Bool.and_eq_true] at hruns ⊢
      rcases hgoes hruns.2 with hlive | htouches
      · exact Or.inl ⟨hruns.1, hlive⟩
      · refine Or.inr ?_
        rw [← hb, hdev, htouches]
        rfl
    · intro htouches
      rw [← hb] at htouches
      simp only [State.runs, Bool.and_eq_true] at htouches ⊢
      refine ⟨htouches.1, ?_⟩
      cases hpc : s.conThrd <;> rw [hpc] at htouches <;> first | rfl | cases htouches.2

theorem overrun_sendStep (cfg : Config) (s : State) :
    Overrun cfg (s.note .sender s.sender.touches).sendStep ↔ Overrun cfg s := by
  generalize hb : s.sender.touches = b
  obtain ⟨hreq, hcon, hsender, hstopped⟩ := note_pcs s .sender b
  obtain ⟨-, hreq', hcon', hstopped', htouched'⟩ := sendStep_frame (s.note .sender b)
  obtain ⟨hstays, hgoes⟩ := sendStep_live (s.note .sender b)
  rw [hsender] at hstays hgoes
  rw [hb] at hgoes
  apply overrun_thread b ?_ (hstopped'.trans hstopped) htouched'
  · intro t ht
    cases t with
    | reqthrd => simp only [State.runs, hreq', hreq]
    | conthrd => simp only [State.runs, hcon', hcon]
    | sender => exact absurd rfl ht
  · exact hstays
  · exact hgoes
  · intro htouches
    rw [← hb] at htouches
    simp only [State.runs]
    cases hpc : s.sender <;> rw [hpc] at htouches <;> first | rfl | cases htouches

theorem overrun_kthreadStop (cfg : Config) (s : State) (t : Thread) :
    ¬ Overrun cfg { s with stopped := t :: s.stopped } ↔
      ¬ Overrun cfg s ∧ NoLiveStop cfg s (.kthreadStop t) := by
  have hruns : ∀ t', State.runs cfg { s with stopped := t :: s.stopped } t' = s.runs cfg t' := by
    intro t'
    cases t' <;> rfl
  simp only [Overrun, hruns, List.mem_cons, NoLiveStop, not_or, not_exists, not_and,
    Bool.not_eq_true]
  constructor
  · intro ⟨htouched, hstop⟩
    exact ⟨⟨htouched, fun t' ht' => hstop t' (Or.inr ht')⟩, hstop t (Or.inl rfl)⟩
  · rintro ⟨⟨htouched, hstop⟩, hnew⟩
    refine ⟨htouched, fun t' ht' => ?_⟩
    rcases ht' with rfl | ht'
    · exact hnew
    · exact hstop t' ht'

theorem overrun_step {l : Label} (hs : Early s) (h : step cfg s l = some s') :
    ¬ Overrun cfg s' ↔ ¬ Overrun cfg s ∧ NoLiveStop cfg s l := by
  cases l with
  | put d op =>
    cases h
    simp only [NoLiveStop, and_true]
    exact (overrun_of_eq rfl rfl rfl rfl rfl).not
  | irq d env =>
    cases h
    obtain ⟨-, hreq, hcon, hsender, hstopped, htouched⟩ := irqStep_frame cfg s d env
    simp only [NoLiveStop, and_true]
    exact (overrun_of_eq hstopped htouched hreq hcon hsender).not
  | reqthrd =>
    cases h
    simp only [NoLiveStop, and_true]
    exact (overrun_reqStep cfg s).not
  | conthrd received =>
    cases h
    simp only [NoLiveStop, and_true]
    exact (overrun_conStep hs received).not
  | sendtocli =>
    cases h
    simp only [NoLiveStop, and_true]
    exact (overrun_sendStep cfg s).not
  | kthreadStop t =>
    cases h
    exact overrun_kthreadStop cfg s t

def Thread.label : Thread → Label
  | .reqthrd => .reqthrd
  | .conthrd => .conthrd false
  | .sender => .sendtocli

def State.touches (cfg : Config) (s : State) : Thread → Bool
  | .reqthrd => cfg.devOn && s.reqThrd.touches
  | .conthrd => !cfg.devOn && s.conThrd.touches
  | .sender => s.sender.touches

theorem note_touched {t : Thread} (h : t ∈ s.stopped) : (s.note t true).touched ≠ [] := by
  simp [State.note, State.shouldStop, h]

theorem touched_of_touches {t : Thread} (hstop : t ∈ s.stopped) (h : s.touches cfg t = true) :
    ∃ u, step cfg s t.label = some u ∧ u.touched ≠ [] := by
  obtain ⟨u, hu⟩ := step_total cfg s t.label
  refine ⟨u, hu, ?_⟩
  cases t with
  | reqthrd =>
    cases hu
    rw [(reqStep_frame cfg _).2.2.2, show (cfg.devOn && s.reqThrd.touches) = true from h]
    exact note_touched hstop
  | conthrd =>
    cases hu
    simp only [State.touches, Bool.and_eq_true, Bool.not_eq_true'] at h
    simp only [State.conStep, h.1, Bool.false_eq_true, if_false, Bool.not_false, Bool.true_and, h.2]
    rw [(clientStep_frame cfg _ false).2.2.2]
    exact note_touched hstop
  | sender =>
    cases hu
    rw [(sendStep_frame _).2.2.2.2, show s.sender.touches = true from h]
    exact note_touched hstop

/-- A stop wakes a dispatcher that waits, whatever its queue holds. -/
theorem touches_next {t : Thread} (hs : Early s) (hstop : t ∈ s.stopped)
    (hruns : s.runs cfg t = true) (h : s.touches cfg t = false) :
    ∃ m, step cfg s t.label = some m ∧ m.stopped = s.stopped ∧ m.touches cfg t = true := by
  have hwakes : ∀ q, s.wakes q t = true := by
    intro q
    simp [State.wakes, State.shouldStop, hstop]
  cases t with
  | reqthrd =>
    simp only [State.runs, State.touches, Bool.and_eq_true] at hruns h
    obtain ⟨hdev, hlive⟩ := hruns
    rw [hdev, Bool.true_and] at h
    have hpc : s.reqThrd = .wait := by
      cases hpc : s.reqThrd <;> first | rfl | simp [hpc, ReqPc.live, ReqPc.touches] at hlive h
    refine ⟨{ s with reqThrd := .pop }, ?_, rfl, by simp [State.touches, hdev, ReqPc.touches]⟩
    simp [Thread.label, step, hpc, ReqPc.touches, State.note, State.reqStep, hdev, hwakes]
  | conthrd =>
    simp only [State.runs, State.touches, Bool.and_eq_true, Bool.not_eq_true'] at hruns h
    obtain ⟨hdev, hlive⟩ := hruns
    rw [hdev, Bool.not_false, Bool.true_and] at h
    have hearly := hs.early
    have hpc : s.conThrd = .wait := by
      cases hpc : s.conThrd <;>
        first | rfl | simp [hpc, ConPc.live, ConPc.touches, ConPc.early] at hlive h hearly
    refine ⟨{ s with conThrd := .pop }, ?_, rfl, by simp [State.touches, hdev, ConPc.touches]⟩
    simp [Thread.label, step, hpc, ConPc.touches, State.note, State.conStep, State.clientStep, hdev,
      hwakes]
  | sender =>
    simp only [State.runs, State.touches] at hruns h
    have hpc : s.sender = .wait := by
      cases hpc : s.sender <;> first | rfl | simp [hpc, SenderPc.live, SenderPc.touches] at hruns h
    refine ⟨{ s with sender := .pop }, ?_, rfl, rfl⟩
    simp [Thread.label, step, hpc, SenderPc.touches, State.note, State.sendStep, hwakes]

/-- A stopped dispatcher that runs on touches its queue or its task within two steps. -/
theorem touches_of_overrun (hs : Early s) (h : Overrun cfg s) :
    ∃ ms u, (∀ l ∈ ms, l.isStop = false) ∧ exec (step cfg) s ms = some u ∧ u.touched ≠ [] := by
  rcases h with h | ⟨t, hstop, hruns⟩
  · exact ⟨[], s, by simp, rfl, h⟩
  · have hlabel : t.label.isStop = false := by cases t <;> rfl
    cases htouches : s.touches cfg t with
    | true =>
      obtain ⟨u, hu, hne⟩ := touched_of_touches hstop htouches
      refine ⟨[t.label], u, by simp [hlabel], ?_, hne⟩
      exact (exec_cons_eq_some _).mpr ⟨u, hu, rfl⟩
    | false =>
      obtain ⟨m, hm, hstopped, htouches'⟩ := touches_next hs hstop hruns htouches
      obtain ⟨u, hu, hne⟩ := touched_of_touches (hstopped ▸ hstop) htouches'
      refine ⟨[t.label, t.label], u, by simp [hlabel], ?_, hne⟩
      exact (exec_cons_eq_some _).mpr ⟨m, hm, (exec_cons_eq_some _).mpr ⟨u, hu, rfl⟩⟩

/-! ## A queue is not empty when it is popped -/

/-- A dispatcher about to pop finds a task, and no pop has returned NULL so far. -/
structure Served (cfg : Config) (s : State) : Prop where
  owned : Owned s
  early : Early s
  running : ¬ Overrun cfg s
  ready : ∀ q, s.popsNext q → s.queues.queued q ≠ []
  found : ∀ q, none ∉ s.queues.popped q

theorem served_start (cfg : Config) (memory : Memory) (mapped : Dom → Nat) : Served cfg (start memory mapped) where
  owned := owned_start memory mapped
  early := early_start memory mapped
  running := by
    rintro (h | ⟨t, ht, -⟩)
    · exact h rfl
    · cases ht
  ready := by
    intro q hq
    cases q <;> cases hq
  found := fun q hq => nomatch hq

theorem queued_of_wakes (hs : Served cfg s) {q : QueueId} {t : Thread}
    (hruns : s.runs cfg t = true) (h : s.wakes q t = true) : s.queues.queued q ≠ [] := by
  simp only [State.wakes, Bool.or_eq_true, Bool.not_eq_true', hs.owned.sound.holds.isEmpty] at h
  rcases h with hne | hstop
  · intro hnil
    rw [hnil] at hne
    cases hne
  · exact absurd (Or.inr ⟨t, by simpa [State.shouldStop] using hstop, hruns⟩) hs.running

/-- The dispatcher of the queue is about to pop it or finds a reason to wake. -/
def Woken (cfg : Config) (s : State) (q : QueueId) : Prop :=
  s.popsNext q ∨ s.runs cfg q.consumer = true ∧ s.wakes q q.consumer = true

theorem queued_of_woken_note (hs : Served cfg s) {t : Thread} {b : Bool} {q : QueueId}
    (h : Woken cfg (s.note t b) q) : s.queues.queued q ≠ [] := by
  obtain ⟨l, heq⟩ := note_frame s t b
  rw [heq] at h
  rcases h with hpops | ⟨hruns, hwakes⟩
  · exact hs.ready q hpops
  · refine queued_of_wakes hs ?_ hwakes
    cases q <;> exact hruns

theorem reqStep_woken (cfg : Config) (s : State) {q : QueueId}
    (h : (s.reqStep cfg).popsNext q) : Woken cfg s q := by
  obtain ⟨hcon, hsender, -, -⟩ := reqStep_frame cfg s
  cases q with
  | native =>
    change (s.reqStep cfg).reqThrd = .pop at h
    unfold State.reqStep at h
    split at h
    · exact Or.inl h
    · next hdev =>
      have hdev : cfg.devOn = true := by simpa using hdev
      cases hpc : s.reqThrd with
      | wait =>
        simp only [hpc] at h
        split at h
        · next hwakes =>
          exact Or.inr ⟨by simp [State.runs, QueueId.consumer, hdev, hpc, ReqPc.live], hwakes⟩
        · rw [hpc] at h
          cases h
      | pop => exact Or.inl hpc
      | writeResp n stage =>
        simp only [hpc] at h
        split at h
        · cases h
        · cases stage <;> cases h
      | readData n | remoteOp n =>
        simp only [hpc] at h
        split at h <;> cases h
      | respond n =>
        simp only [hpc] at h
        cases h
      | dead n =>
        simp only [hpc] at h
        cases h
  | sendtocli => exact Or.inl (hsender.symm.trans h)
  | remote => exact Or.inl (hcon.symm.trans h)
  | submit => exact Or.inl (hcon.symm.trans h)

theorem clientStep_woken (hs : Early s) {received : Bool} {q : QueueId} (hdev : cfg.devOn = false)
    (h : (s.clientStep cfg received).popsNext q) : Woken cfg s q := by
  obtain ⟨hreq, hsender, -, -⟩ := clientStep_frame cfg s received
  cases q with
  | native => exact Or.inl (hreq.symm.trans h)
  | sendtocli => exact Or.inl (hsender.symm.trans h)
  | submit =>
    have hearly := (early_clientStep hs received : Early (s.clientStep cfg received)).early
    rw [show (s.clientStep cfg received).conThrd = .recv from h] at hearly
    cases hearly
  | remote =>
    have hearly := hs.early
    change (s.clientStep cfg received).conThrd = .pop at h
    unfold State.clientStep at h
    cases hpc : s.conThrd with
    | wait =>
      simp only [hpc] at h
      split at h
      · next hwakes =>
        exact Or.inr ⟨by simp [State.runs, QueueId.consumer, hdev, hpc, ConPc.live], hwakes⟩
      · rw [hpc] at h
        cases h
    | pop => exact Or.inl hpc
    | writeResp n stage =>
      simp only [hpc] at h
      split at h
      · cases h
      · cases stage <;> cases h
    | waitSer n =>
      simp only [hpc, waitser_blocked hs n] at h
      cases h
    | dead n =>
      simp only [hpc] at h
      cases h
    | _ =>
      rw [hpc] at hearly
      cases hearly

theorem sendStep_woken (cfg : Config) (s : State) {q : QueueId} (h : s.sendStep.popsNext q) :
    Woken cfg s q := by
  obtain ⟨-, hreq, hcon, -, -⟩ := sendStep_frame s
  cases q with
  | native => exact Or.inl (hreq.symm.trans h)
  | remote => exact Or.inl (hcon.symm.trans h)
  | submit => exact Or.inl (hcon.symm.trans h)
  | sendtocli =>
    change s.sendStep.sender = .pop at h
    unfold State.sendStep at h
    cases hpc : s.sender with
    | wait =>
      simp only [hpc] at h
      split at h
      · next hwakes =>
        exact Or.inr ⟨by simp [State.runs, QueueId.consumer, hpc, SenderPc.live], hwakes⟩
      · rw [hpc] at h
        cases h
    | pop => exact Or.inl hpc
    | send n =>
      simp only [hpc] at h
      cases h
    | dead =>
      simp only [hpc] at h
      cases h

theorem step_woken {l : Label} {q : QueueId} (hs : Served cfg s) (h : step cfg s l = some s')
    (hq : s'.popsNext q) : s.queues.queued q ≠ [] := by
  have hsame : s.popsNext q → s.queues.queued q ≠ [] := hs.ready q
  cases l with
  | put d op =>
    cases h
    exact hsame (by cases q <;> exact hq)
  | irq d env =>
    cases h
    obtain ⟨-, hreq, hcon, hsender, -⟩ := irqStep_frame cfg s d env
    apply hsame
    cases q with
    | native => exact hreq.symm.trans hq
    | sendtocli => exact hsender.symm.trans hq
    | remote => exact hcon.symm.trans hq
    | submit => exact hcon.symm.trans hq
  | reqthrd =>
    cases h
    exact queued_of_woken_note hs (reqStep_woken cfg _ hq)
  | conthrd received =>
    cases h
    unfold State.conStep at hq
    split at hq
    · have hpops : (s.note .conthrd (!cfg.devOn && s.conThrd.touches)).popsNext q := by
        unfold State.recvmsgFromClient at hq
        split at hq
        · cases q <;> exact hq
        · exact hq
      exact queued_of_woken_note hs (Or.inl hpops)
    · next hdev =>
      exact queued_of_woken_note hs
        (clientStep_woken (early_note hs.early _ _) (by simpa using hdev) hq)
  | sendtocli =>
    cases h
    exact queued_of_woken_note hs (sendStep_woken cfg _ hq)
  | kthreadStop t =>
    cases h
    exact hsame (by cases q <;> exact hq)

theorem queued_push_ne_nil (hs : Owned s) (q : QueueId) {q' : QueueId} {n : Nat}
    (h : s.queues.queued q' ≠ []) : (s.queues.push q n).queued q' ≠ [] := by
  rw [hs.sound.queued_push]
  by_cases hq : q' = q
  · subst hq
    rw [Function.update_self]
    simp
  · rw [Function.update_of_ne hq]
    exact h

theorem served_step {l : Label} (hs : Served cfg s) (hl : NoLiveStop cfg s l)
    (h : step cfg s l = some s') : Served cfg s' := by
  have hmove := step_move h
  generalize s.finishes cfg l = lossy at hmove
  refine ⟨step_owned hs.owned h, early_step hs.early h, ?_, ?_, ?_⟩
  · exact (overrun_step hs.early h).mpr ⟨hs.running, hl⟩
  · intro q hq
    have hne := step_woken hs h hq
    have hpop : ∀ q', ¬ s'.popsNext q' → (s.queues.pop q').queued q ≠ [] := by
      intro q' hleft
      have hqq' : q ≠ q' := by
        rintro rfl
        exact hleft hq
      rw [hs.owned.sound.queued_pop, Function.update_of_ne hqq']
      exact hne
    cases hmove with
    | quiet queues | drop n queues | free n queues =>
      rw [queues]
      exact hne
    | make q' queues | give q' n queues | replace q' n queues =>
      rw [queues]
      exact queued_push_ne_nil hs.owned q' hne
    | take q' n front queues hands nextTask freed here left =>
      rw [queues]
      exact hpop q' left
    | miss q' front queues hands nextTask freed here left =>
      rw [queues]
      exact hpop q' left
  · intro q
    cases hmove with
    | quiet queues | drop n queues | free n queues =>
      rw [queues]
      exact hs.found q
    | make q' queues | give q' n queues | replace q' n queues =>
      rw [queues]
      exact hs.found q
    | take q' n front queues =>
      rw [queues]
      by_cases hq : q = q'
      · subst hq
        simp only [Queues.pop, Function.update_self, List.mem_append, List.mem_singleton, not_or]
        refine ⟨hs.found q, fun hnone => ?_⟩
        rw [Queues.front, ← hnone] at front
        cases front
      · simp only [Queues.pop, Function.update_of_ne hq]
        exact hs.found q
    | miss q' front queues hands nextTask freed here left =>
      rw [hs.owned.sound.front_eq, List.head?_eq_none_iff] at front
      exact absurd front (hs.ready q' here)

/-! ## Clean runs -/

theorem eq_map_reduceOption {α : Type} {l : List (Option α)} (h : none ∉ l) :
    l = l.reduceOption.map some := by
  induction l with
  | nil => rfl
  | cons o l ih =>
    cases o with
    | none => exact absurd List.mem_cons_self h
    | some x =>
      rw [List.reduceOption_cons_of_some, List.map_cons,
        ← ih fun hmem => h (List.mem_cons_of_mem _ hmem)]

theorem clean_of_served (hs : Served cfg s) : Clean s := by
  have hqueued : ∀ n, n ∈ s.freed ∨ n ∈ s.hands → n ∉ s.queues.all := by
    intro n hn hall
    have hnodup := List.nodup_append.mp hs.owned.nodup
    rcases hn with hn | hn
    · exact hnodup.2.2 n (List.mem_append_left _ hall) n hn rfl
    · exact hs.owned.not_queued hn hall
  refine ⟨fun q => ?_, fun n hn q hlinked => ?_, fun n hn hfreed => ?_, ?_⟩
  · rw [eq_map_reduceOption (hs.found q), hs.owned.sound.fifo q, List.map_map]
    exact (List.take_prefix _ _).map _
  · exact hqueued n hn (Queues.mem_all.mpr ⟨q, hs.owned.sound.holds.linked_iff.mp hlinked⟩)
  · have hnodup := List.nodup_append.mp hs.owned.nodup
    exact hnodup.2.2 n (List.mem_append_right _ hn) n hfreed rfl
  · by_contra hne
    exact hs.running (Or.inl hne)

end

/-- What was done so far and all that can follow without a further stop is clean exactly if
no running dispatcher was stopped. -/
theorem dispatchers_clean_iff {cfg : Config} {memory : Memory} {mapped : Dom → Nat} {ls : List Label} {s : State}
    (hrun : exec (step cfg) (start memory mapped) ls = some s) :
    Along (step cfg) (NoLiveStop cfg) (start memory mapped) ls ↔
      ∀ ms u, (∀ l ∈ ms, l.isStop = false) → exec (step cfg) s ms = some u → Clean u := by
  have hearly : Early s := invariant early_step (early_start memory mapped) hrun
  constructor
  · intro hls ms u hms hrest
    have hserved : Served cfg s := invariant_along served_step (served_start cfg memory mapped) hls hrun
    have hmore : Along (step cfg) (NoLiveStop cfg) s ms := by
      refine (along_of_forall (C := fun l => l.isStop = false) hms).mono fun s' l hl => ?_
      cases l with
      | kthreadStop t => cases hl
      | _ => trivial
    exact clean_of_served (invariant_along served_step hserved hmore hrest)
  · intro hclean
    by_contra hls
    have hover : Overrun cfg s := by
      by_contra hno
      exact hls ((along_iff_of_invariant early_step overrun_step (early_start memory mapped) hrun).mp hno).2
    obtain ⟨ms, u, hms, hrest, hne⟩ := touches_of_overrun hearly hover
    exact hne (hclean ms u hms hrest).quiet

theorem dispatchers_clean_iff_one_write :
    ∃ s, exec (step (serverConfig ⟨4096, 4096⟩ 32)) (start ⟨id, id⟩ fun _ => 0)
        (.put 0 .write :: (List.replicate 4 (.irq 0 {}) ++ [.reqthrd, .reqthrd])) = some s ∧
      ∀ ms u, (∀ l ∈ ms, l.isStop = false) →
        exec (step (serverConfig ⟨4096, 4096⟩ 32)) s ms = some u → Clean u := by
  obtain ⟨s, hs⟩ := exec_total (step_total (serverConfig ⟨4096, 4096⟩ 32)) (start ⟨id, id⟩ fun _ => 0)
    (.put 0 .write :: (List.replicate 4 (.irq 0 {}) ++ [.reqthrd, .reqthrd]))
  refine ⟨s, hs, (dispatchers_clean_iff hs).mp ?_⟩
  refine (along_of_forall (C := fun l => l.isStop = false) (by decide)).mono fun s' l hl => ?_
  cases l with
  | kthreadStop t => cases hl
  | _ => trivial

/-- The unload of an idle server: the request thread wakes, pops NULL and works on it. -/
theorem stop_pops_null :
    ∃ s, exec (step (serverConfig ⟨4096, 4096⟩ 32)) (start ⟨id, id⟩ fun _ => 0)
        [.kthreadStop .reqthrd, .reqthrd, .reqthrd] = some s ∧
      s.queues.popped .native = [none] ∧ s.touched = [.reqthrd] ∧ ¬ Clean s := by
  refine ⟨_, rfl, rfl, rfl, fun h => ?_⟩
  exact absurd h.quiet (by decide)

end PdmaXen.NetDom0.Objects
