import PdmaXen.Pdma.Ownership

/-!
# The receive FIFO is kept full

A buffer joins `rd_free` in one section and is submitted in a later one. Whenever a
free buffer and a FIFO slot are left, some call still has its submit routine ahead.
-/

namespace PdmaXen.Pdma
set_option autoImplicit false
open Dev Pool

/-- A `pdma_read` or a `pdma_dma_start` is about to call the submit routine. The
section of `pdma_intr_notify` that frees FIFO slots calls it before it ends. -/
def Dev.Refilling (d : Dev) : Prop :=
  (∃ p, (d.readers p).pc = .submit) ∨ ∃ p k, d.ctls p = .startSubmit k

/-- No `pdma_read`, no `pdma_intr_notify` and no control operation is in progress. -/
structure Dev.AtRest (d : Dev) : Prop where
  readers : ∀ p, (d.readers p).pc = .idle
  isrs : ∀ p, d.isrs p = .idle
  ctls : ∀ p, d.ctls p = .idle

/-- A free buffer and a FIFO slot are left over only while somebody is refilling. -/
def Dev.Conserving (d : Dev) : Prop :=
  d.dmaEnable = true → d.rd.free ≠ [] → d.rd.submitCnt < rdFifoDepth → d.Refilling

variable {g : Geometry} {bn bn' : Bounce} {d d' : Dev} {l : Label}

theorem filled_submit (d : Dev) (hon : d.dmaEnable = true) :
    (d.tryToSubmitReadNolock g).rd.free = [] ∨
      rdFifoDepth ≤ (d.tryToSubmitReadNolock g).rd.submitCnt := by
  obtain ⟨n, st, _, _, hstop, heq⟩ := tryToSubmitReadNolock_eq g d
  rw [heq]
  rcases hstop hon with hall | hfull
  · left
    simp only [hall]
    exact List.drop_length
  · exact .inr hfull

theorem Dev.Conserving.of_filled
    (h : d.dmaEnable = true → d.rd.free = [] ∨ rdFifoDepth ≤ d.rd.submitCnt) : d.Conserving := by
  intro hon hfree hroom
  rcases h hon with hempty | hfull
  · exact absurd hempty hfree
  · omega

theorem Dev.Conserving.of_refilling (h : d.Refilling) : d.Conserving := fun _ _ _ => h

theorem Dev.Conserving.congr (h : d.Conserving) (hon : d'.dmaEnable = d.dmaEnable)
    (hrd : d'.rd.free = d.rd.free ∧ d'.rd.submitCnt = d.rd.submitCnt)
    (hrefill : d.Refilling → d'.Refilling) : d'.Conserving := by
  intro hon' hfree hroom
  rw [hon] at hon'
  rw [hrd.1] at hfree
  rw [hrd.2] at hroom
  exact hrefill (h hon' hfree hroom)

/-- Only the last two sections of a `pdma_read` change `rd_free` or `rd_submit_cnt`. -/
theorem rdStep_free (bn : Bounce) (d : Dev) (p : Pid) (copyOk sig : Bool)
    (hrelease : ∀ b, (d.readers p).pc ≠ .release b) (hsubmit : (d.readers p).pc ≠ .submit) :
    (d.rdStep g bn p copyOk sig).2.rd.free = d.rd.free ∧
      (d.rdStep g bn p copyOk sig).2.rd.submitCnt = d.rd.submitCnt := by
  unfold rdStep
  cases hpc : (d.readers p).pc <;> dsimp only
  case release b => exact absurd hpc (hrelease b)
  case submit => exact absurd hpc hsubmit
  case tryRead =>
    unfold tryRead
    split <;> exact ⟨rfl, rfl⟩
  case relock =>
    unfold tryRead
    split
    · split <;> exact ⟨rfl, rfl⟩
    · exact ⟨rfl, rfl⟩
  case bounceCopy | copyUser => split <;> exact ⟨rfl, rfl⟩
  case asleep =>
    split
    · exact ⟨rfl, rfl⟩
    · split <;> exact ⟨rfl, rfl⟩
  all_goals exact ⟨rfl, rfl⟩

theorem Dev.Refilling.congr (h : d.Refilling)
    (hrd : ∀ p, (d.readers p).pc = .submit → (d'.readers p).pc = .submit)
    (hctl : d'.ctls = d.ctls) : d'.Refilling := by
  rcases h with ⟨p, hp⟩ | ⟨p, k, hp⟩
  · exact .inl ⟨p, hrd p hp⟩
  · exact .inr ⟨p, k, by rw [hctl]; exact hp⟩

theorem conserving_rdStep (bn : Bounce) (p : Pid) (copyOk sig : Bool) (h : d.Conserving) :
    (d.rdStep g bn p copyOk sig).2.Conserving := by
  by_cases hsubmit : (d.readers p).pc = .submit
  · unfold rdStep
    rw [hsubmit]
    refine .of_filled fun hon => filled_submit d ?_
    obtain ⟨n, st, _, _, _, heq⟩ := tryToSubmitReadNolock_eq g d
    dsimp only at hon
    rwa [heq] at hon
  · by_cases hrelease : ∃ b, (d.readers p).pc = .release b
    · obtain ⟨b, hb⟩ := hrelease
      unfold rdStep
      rw [hb]
      exact .of_refilling (.inl ⟨p, setRd_readers_self ..⟩)
    · obtain ⟨_, _, _, _, _, _, heq⟩ := rdStep_frame g bn d p copyOk sig
      refine h.congr (by rw [heq])
        (rdStep_free bn d p copyOk sig (fun b hb => hrelease ⟨b, hb⟩) hsubmit) fun hr => ?_
      refine hr.congr (fun q hq => ?_) (by rw [heq])
      have hne : q ≠ p := fun hqp => hsubmit (hqp ▸ hq)
      rw [(rdStep_stepped g bn d p copyOk sig).others q hne]
      exact hq

theorem step_conserving (hl : l.isCtlCall = false) (hf : Fifos g d) (hrun : Running d)
    (hstep : step g bn d l = some (bn', d')) (h : d.Conserving) : d'.Conserving := by
  cases step_cases hstep with
  | rdCall p count nonblock hidle =>
    refine h.congr rfl ⟨rfl, rfl⟩ fun hr => hr.congr (fun q hq => ?_) rfl
    have hne : q ≠ p := by
      rintro rfl
      rw [hidle] at hq
      cases hq
    simpa [Function.update_of_ne hne] using hq
  | rdStep p copyOk sig => exact conserving_rdStep bn p copyOk sig h
  | wtCall => exact h
  | wtStep p copied sig =>
    obtain ⟨_, _, _, _, _, heq⟩ := wtStep_frame g d p copied sig
    rw [heq]
    exact h
  | isrCall => exact h
  | isrStep p blks n _ he =>
    cases isrStep_move hf.rd hf.wt he with
    | idle _ eq | off _ _ eq | wakeWt _ eq =>
      rw [eq]
      exact h
    | wakeRd _ _ eq =>
      rw [eq]
      refine h.congr rfl ⟨rfl, rfl⟩ fun hr => hr.congr (fun q hq => ?_) rfl
      simp [wakeRdque, setIsr, hq, RdPc.mapWait]
    | notify _ _ _ _ _ k m mem st rdFree _ rdStop _ _ _ _ _ _ eq =>
      subst eq
      by_cases hnone : blks = []
      · subst hnone
        intro hon hfree hroom
        simp only [setIsr, Side.postTake, Side.reap, List.length_nil] at hfree hroom
        refine h hon (fun hempty => hfree (by rw [hempty, List.drop_nil])) ?_
        omega
      · refine .of_filled fun _ => ?_
        rcases rdStop hnone with hall | hfull
        · left
          simp only [setIsr, hall]
          exact List.drop_length
        · exact .inr hfull
  | ctlCall => cases hl
  | ctlStep p resetOk =>
    unfold ctlStep
    rcases hrun.tail p with hp | ⟨k, hp⟩ <;> rw [hp] <;> dsimp only
    · exact h
    · refine .of_filled fun _ => ?_
      exact filled_submit d hrun.on

theorem Starts.refilling {d₀ : Dev} (h : Starts g d₀ d) : d.Refilling := by
  obtain ⟨p, k, hp, -, rfl⟩ := h
  refine .inr ⟨p, k, ?_⟩
  unfold ctlStep
  rw [hp]
  exact Function.update_self ..

theorem Dev.AtRest.not_refilling (h : d.AtRest) : ¬ d.Refilling := by
  rintro (⟨p, hp⟩ | ⟨p, k, hp⟩)
  · rw [h.readers p] at hp
    cases hp
  · rw [h.ctls p] at hp
    cases hp

/-- With nobody left to refill, the FIFO holds all it can of what is not pending. -/
theorem submit_length_of_rest (hon : d.dmaEnable = true) (hfifo : d.rd.Fifo g.rdPhys)
    (h : d.Conserving) (hrest : d.AtRest) :
    d.rd.submit.length = min rdFifoDepth (d.rd.free.length + d.rd.submit.length) := by
  have hcnt := hfifo.cnt
  have hdepth := hfifo.depth
  by_cases hfree : d.rd.free = []
  · simp only [hfree, List.length_nil]
    omega
  · by_cases hroom : d.rd.submitCnt < rdFifoDepth
    · exact absurd (h hon hfree hroom) hrest.not_refilling
    · omega

/-- The read pool on its own: every read buffer is listed once or held by one reader. -/
structure RdPool (g : Geometry) (d : Dev) : Prop where
  exclusive : Exclusive d.rd.listed d.rdHeld
  covers : Covers (· < g.rdBufNr) d.rd.listed d.rdHeld

theorem Starts.rdPool {d₀ : Dev} (h : Starts g d₀ d) (hempty : ∀ p, d₀.rdHeld p = none) :
    RdPool g d := by
  obtain ⟨p, k, hp, -, rfl⟩ := h
  obtain ⟨hrd, _, hheld, _⟩ := ctlStep_rebuild (g := g) (.inl ⟨k, hp⟩) true
  rw [← hheld] at hempty
  constructor
  · rw [hrd, listed_range]
    exact .of_none List.nodup_range hempty
  · rw [hrd, listed_range]
    exact .of_none (fun b => List.mem_range.symm) hempty

theorem step_rdPool (hrun : Running d) (hf : Fifos g d)
    (hstep : step g bn d l = some (bn', d')) (h : RdPool g d) : RdPool g d' := by
  cases step_pools hstep (hrun.no_rebuild l) hf with
  | rd p move _ _ => exact ⟨move.exclusive h.exclusive, move.covers h.covers⟩
  | wt p _ rd rdHeld => exact ⟨by rw [rd, rdHeld]; exact h.exclusive, by rw [rd, rdHeld]; exact h.covers⟩
  | perm rd _ rdHeld _ =>
    exact ⟨by rw [rdHeld]; exact h.exclusive.perm rd, by rw [rdHeld]; exact h.covers.perm rd⟩

theorem RdPool.length_listed (h : RdPool g d) (hrest : d.AtRest) :
    d.rd.listed.length = g.rdBufNr := by
  have hnone : ∀ p, d.rdHeld p = none := fun p => by
    rw [rdHeld, hrest.readers p]
    rfl
  have hperm : d.rd.listed.Perm (List.range g.rdBufNr) := by
    refine (List.perm_ext_iff_of_nodup h.exclusive.nodup List.nodup_range).mpr fun b => ?_
    rw [List.mem_range]
    constructor
    · intro hmem
      exact (h.covers b).mpr (.inl hmem)
    · intro hlt
      exact ((h.covers b).mp hlt).resolve_right (by simp [hnone])
  simpa using hperm.length_eq

/-- From a start on, in any run of the module without another control operation on the
device: a free buffer next to a free FIFO slot means that somebody is refilling, and at
rest the FIFO holds all it can of the buffers that are not pending. A start that finds a
reader with a buffer in its hands counts that buffer twice. -/
theorem read_work_conserving {geo : Nat → Geometry} {i : Nat} {d₀ : Dev} {s t : Driver}
    {ls : List (Nat × Label)} (hstart : Starts (geo i) d₀ (s.dev i))
    (hls : ∀ l ∈ ls, l.1 = i → l.2.isCtlCall = false)
    (hrun : Machine.exec (Driver.step geo) s ls = some t) :
    (t.dev i).Conserving ∧ ((t.dev i).AtRest →
      (t.dev i).rd.submit.length
          = min rdFifoDepth ((t.dev i).rd.free.length + (t.dev i).rd.submit.length) ∧
        ((∀ p, d₀.rdHeld p = none) → (t.dev i).rd.submit.length
          = min rdFifoDepth ((geo i).rdBufNr - (t.dev i).rd.pending.length))) := by
  have hkept : Running (t.dev i) ∧ Fifos (geo i) (t.dev i) ∧ (t.dev i).Conserving ∧
      ((∀ p, d₀.rdHeld p = none) → RdPool (geo i) (t.dev i)) := by
    refine Driver.invariant_along (C := fun _ _ l => l.isCtlCall = false)
      (I := fun d => Running d ∧ Fifos (geo i) d ∧ d.Conserving ∧
        ((∀ p, d₀.rdHeld p = none) → RdPool (geo i) d)) ?_ ?_ (Machine.along_of_forall hls) hrun
    · rintro bn d l bn' d' ⟨hon, hf, hcons, hpool⟩ hl hstep
      exact ⟨step_running hl hstep hf hon, step_fifos hstep hf, step_conserving hl hf hon hstep hcons,
        fun hempty => step_rdPool hon hf hstep (hpool hempty)⟩
    · exact ⟨hstart.running, hstart.fifos, .of_refilling hstart.refilling, hstart.rdPool⟩
  obtain ⟨hon, hf, hcons, hpool⟩ := hkept
  refine ⟨hcons, fun hrest => ?_⟩
  have hfull := submit_length_of_rest hon.on hf.rd hcons hrest
  refine ⟨hfull, fun hempty => ?_⟩
  have hlen := (hpool hempty).length_listed hrest
  simp only [Side.listed, List.length_append] at hlen
  rw [hfull]
  congr 1
  omega

theorem read_work_conserving_one_read :
    let d₀ := (Dev.init smallCard).setCtl 0 (.startInit .ioctl)
    let s : Driver := ⟨{}, fun _ => d₀.ctlStep smallCard 0 true⟩
    ∃ t, Machine.exec (Driver.step fun _ => smallCard) s
        ([(0, .ctlStep 0 true), (0, .isrCall 0), (0, .isrStep 0 [List.replicate 4096 7] 0),
          (0, .rdCall 1 4096 false)] ++ List.replicate 9 (0, .rdStep 1 true false)) = some t ∧
      (t.dev 0).Conserving ∧ ((t.dev 0).AtRest →
        (t.dev 0).rd.submit.length
            = min rdFifoDepth ((t.dev 0).rd.free.length + (t.dev 0).rd.submit.length) ∧
          ((∀ p, d₀.rdHeld p = none) → (t.dev 0).rd.submit.length
            = min rdFifoDepth (smallCard.rdBufNr - (t.dev 0).rd.pending.length))) := by
  intro d₀ s
  refine Machine.exists_end _ (by decide +kernel) fun t hrun =>
    read_work_conserving (i := 0) (?_ : Starts _ d₀ _) (by decide) hrun
  exact ⟨0, .ioctl, rfl, fun q hq => Function.update_of_ne hq _ _, rfl⟩

end PdmaXen.Pdma
