import PdmaXen.Pdma.Ownership

/-!
# Nothing is in hand when the lists are rebuilt

`pdma_dma_stop` closes the gate and waits for `rw_cnt`. A rebuild of the lists or
a release of the pool behind a stop that did wait finds no call past the gate.
The driver also rebuilds behind a stop that failed, and then it does not.
-/

namespace PdmaXen.Pdma
set_option autoImplicit false
open Pool Dev

/-- `pdma_dma_start` and `pdma_dev_exit` go on after their stop whatever it returns. -/
def Stopper.ignoresResult : Stopper → Bool
  | .start _ | .devExit => true
  | .ioctl | .pcieExit => false

/-- A control operation that has closed the gate and will rebuild or free. -/
def CtlPc.closed : CtlPc → Bool
  | .stopReset k | .stopWakeRd k _ | .stopWakeWt k _ | .stopCheck k _ => k.ignoresResult
  | .startReset _ | .startInit _ | .freePool => true
  | _ => false

def CtlPc.drained : CtlPc → Bool
  | .startReset _ | .startInit _ | .freePool => true
  | _ => false

theorem CtlPc.closed_of_drained {pc : CtlPc} (h : pc.drained = true) : pc.closed = true := by
  cases pc <;> simp_all [drained, closed]

theorem Stopper.closed_next (k : Stopper) : k.next.closed = k.ignoresResult := by
  cases k <;> rfl

theorem Stopper.drained_next (k : Stopper) : k.next.drained = k.ignoresResult := by
  cases k <;> rfl

theorem CtlOp.closed_entry (op : CtlOp) : op.entry.closed = false := by
  cases op <;> rfl

/-- The control steps the driver gets right. A start or exit whose stop gives up
while `rw_cnt` is not zero, a start that skips its stop while a call is past the
gate, one that reopens the gate behind another operation's stop, and a
`pdma_dev_ctrl_init` that overwrites a non-zero `rw_cnt` are left out. -/
def Calm (d : Dev) : Label → Prop
  | .ctlStep p resetOk =>
    match d.ctls p with
    | .stopReset k => resetOk = true ∨ d.rwCnt = 0 ∨ k.ignoresResult = false
    | .stopCheck k n => n + 1 ≤ maxWait ∨ d.rwCnt = 0 ∨ k.ignoresResult = false
    | .startTest _ => d.dmaEnable = true ∨ d.Quiet
    | .startInit _ => ∀ q, q ≠ p → (d.ctls q).closed = false
    | .ctrlInit => d.rwCnt = 0
    | _ => True
  | _ => True

/-- The step puts every buffer on a free list, or frees the pool. -/
def ReclaimStep (d : Dev) : Label → Prop
  | .ctlStep p _ => Rebuilds d p ∨ d.ctls p = .freePool
  | _ => False

/-- The gate is shut behind every stop, and nobody is past it once the stop is over. -/
structure Guarded (d : Dev) : Prop where
  counted : Counted d.inside d.rwCnt
  shut : ∀ p, (d.ctls p).closed = true → d.dmaEnable = false
  quiet : ∀ p, (d.ctls p).drained = true → d.Quiet

variable {g : Geometry} {d d' : Dev} {bn bn' : Bounce} {l : Label} {p : Pid}

theorem Quiet.congr (h : d.Quiet) (hr : d'.readers = d.readers) (hw : d'.writers = d.writers) :
    d'.Quiet := ⟨by rw [hr]; exact h.rd, by rw [hw]; exact h.wt⟩

theorem Guarded.setCtl {pc : CtlPc} (hc : Counted d.inside d.rwCnt)
    (hshut : ∀ q, q ≠ p → (d.ctls q).closed = true → d.dmaEnable = false)
    (hquiet : ∀ q, q ≠ p → (d.ctls q).drained = true → d.Quiet)
    (hpshut : pc.closed = true → d.dmaEnable = false) (hpquiet : pc.drained = true → d.Quiet) :
    Guarded (d.setCtl p pc) := by
  refine ⟨hc, fun q => ?_, fun q hq => ?_⟩
  · by_cases hqp : q = p
    · subst q
      simpa [Dev.setCtl] using hpshut
    · simpa [Dev.setCtl, Function.update_of_ne hqp] using hshut q hqp
  · have hd : d.Quiet := by
      by_cases hqp : q = p
      · subst q
        exact hpquiet (by simpa [Dev.setCtl] using hq)
      · exact hquiet q hqp (by simpa [Dev.setCtl, Function.update_of_ne hqp] using hq)
    exact Quiet.congr hd rfl rfl

theorem Guarded.moves {pc : CtlPc} (h : Guarded d) (hpshut : pc.closed = true → d.dmaEnable = false)
    (hpquiet : pc.drained = true → d.Quiet) : Guarded (d.setCtl p pc) :=
  .setCtl h.counted (fun q _ => h.shut q) (fun q _ => h.quiet q) hpshut hpquiet

theorem Guarded.stop_ends {k : Stopper} (h : Guarded d)
    (hshut : k.ignoresResult = true → d.dmaEnable = false)
    (hcalm : d.rwCnt = 0 ∨ k.ignoresResult = false) : Guarded (d.setCtl p k.next) := by
  refine h.moves ?_ ?_
  · rwa [k.closed_next]
  · rw [k.drained_next]
    intro hk
    rcases hcalm with hzero | hno
    · exact quiet_of_counted_zero (hzero ▸ h.counted)
    · simp [hk] at hno

theorem ctlStep_guarded {resetOk : Bool} (hcalm : Calm d (.ctlStep p resetOk)) (h : Guarded d) :
    Guarded (d.ctlStep g p resetOk) := by
  have hshut := h.shut p
  have hquiet := h.quiet p
  unfold Calm at hcalm
  unfold ctlStep
  cases hpc : d.ctls p <;> rw [hpc] at hshut hquiet <;> simp only [hpc] at hcalm <;> dsimp only
  case idle => exact h
  case stopDisable k =>
    exact .setCtl h.counted (fun _ _ _ => rfl)
      (fun q _ hq => Quiet.congr (h.quiet q hq) rfl rfl) (fun _ => rfl) (by simp [CtlPc.drained])
  case stopReset k =>
    split
    · exact h.moves hshut (by simp [CtlPc.drained])
    · rename_i hfail
      exact h.stop_ends hshut (hcalm.resolve_left hfail)
  case stopWakeRd k n =>
    exact .setCtl (h.counted.congr fun x => congrFun (inside_wakeRdque d) x) (fun q _ => h.shut q)
      (fun q _ hq => (h.quiet q hq).wakeRdque) hshut (by simp [CtlPc.drained])
  case stopWakeWt k n =>
    exact .setCtl (h.counted.congr fun x => congrFun (inside_wakeWtque d) x) (fun q _ => h.shut q)
      (fun q _ hq => (h.quiet q hq).wakeWtque) hshut (by simp [CtlPc.drained])
  case stopCheck k n =>
    split
    · rename_i hbusy
      split
      · rename_i hlate
        exact h.stop_ends hshut (hcalm.resolve_left (by omega))
      · exact h.moves hshut (by simp [CtlPc.drained])
    · rename_i hzero
      exact h.stop_ends hshut (.inl (by simpa using hzero))
  case startTest k =>
    split
    · exact h.moves (by simp [CtlPc.closed]) (by simp [CtlPc.drained])
    · rename_i hoff
      exact h.moves (fun _ => by simpa using hoff) (fun _ => hcalm.resolve_left hoff)
  case startReset k =>
    exact h.moves hshut hquiet
  case startInit k =>
    have hnone : ∀ q, q ≠ p → (d.ctls q).closed = true → False := fun q hqp hq => by
      simp [hcalm q hqp] at hq
    rw [listInit_eq]
    exact .setCtl h.counted (fun q hqp hq => (hnone q hqp hq).elim)
      (fun q hqp hq => (hnone q hqp (CtlPc.closed_of_drained hq)).elim)
      (by simp [CtlPc.closed]) (by simp [CtlPc.drained])
  case startSubmit k =>
    obtain ⟨n, st, _, _, _, heq⟩ := tryToSubmitReadNolock_eq g d
    rw [heq]
    exact .setCtl h.counted (fun q _ => h.shut q)
      (fun q _ hq => Quiet.congr (h.quiet q hq) rfl rfl) (by simp [CtlPc.closed])
      (by simp [CtlPc.drained])
  case ctrlInit =>
    -- the counter is overwritten, but with the value it has
    have hcounted : Counted d.inside 0 := hcalm ▸ h.counted
    have hinside : (d.ctrlInit g).inside = d.inside := by
      unfold ctrlInit
      rw [listInit_eq]
      funext x
      cases x with
      | inl q => exact RdPc.inside_mapWait ..
      | inr q => exact WtPc.inside_mapWait ..
    have hcnt : (d.ctrlInit g).rwCnt = 0 := by
      unfold ctrlInit
      rw [listInit_eq]
    have hoff : (d.ctrlInit g).dmaEnable = false := by
      unfold ctrlInit
      rw [listInit_eq]
    have hctr : Counted (d.ctrlInit g).inside 0 := by rwa [hinside]
    exact .setCtl (hcnt ▸ hctr) (fun _ _ _ => hoff) (fun _ _ _ => quiet_of_counted_zero hctr)
      (fun _ => hoff) (fun _ => quiet_of_counted_zero hctr)
  case configSize =>
    exact h.moves (by simp [CtlPc.closed]) (by simp [CtlPc.drained])
  case freePool =>
    exact .setCtl h.counted (fun q _ => h.shut q)
      (fun q _ hq => Quiet.congr (h.quiet q hq) rfl rfl) (by simp [CtlPc.closed])
      (by simp [CtlPc.drained])

theorem step_guarded (hcalm : Calm d l) (hstep : step g bn d l = some (bn', d')) (hf : Fifos g d)
    (h : Guarded d) : Guarded d' := by
  cases hctl : l.isCtl with
  | false =>
    obtain ⟨hon, hctls⟩ := step_control hctl hf hstep
    refine ⟨step_counted hctl hf hstep h.counted, fun p hp => ?_, fun p hp => ?_⟩
    · rw [hctls] at hp
      exact hon.trans (h.shut p hp)
    · rw [hctls] at hp
      exact step_quiet hctl hf hstep (h.shut p (CtlPc.closed_of_drained hp)) (h.quiet p hp)
  | true =>
    cases step_cases hstep with
    | ctlCall p op hidle =>
      refine h.moves ?_ ?_
      · simp [op.closed_entry]
      · intro hq
        exact absurd (CtlPc.closed_of_drained hq) (by simp [op.closed_entry])
    | ctlStep p resetOk => exact ctlStep_guarded hcalm h
    | _ => cases hctl

/-- No guarded step takes a buffer out of a caller's hands. -/
theorem Guarded.reclaim (h : Guarded d) (hcalm : Calm d l) (hre : ReclaimStep d l) :
    d.EmptyHanded := by
  cases l with
  | ctlStep p resetOk =>
    unfold Calm at hcalm
    rcases hre with (⟨k, hp⟩ | hp) | hp
    · exact (h.quiet p (by rw [hp]; rfl)).emptyHanded
    · simp only [hp] at hcalm
      exact (quiet_of_counted_zero (hcalm ▸ h.counted)).emptyHanded
    · exact (h.quiet p (by rw [hp]; rfl)).emptyHanded
  | _ => exact hre.elim

/-- What calm steps keep: the lists match the hardware, no buffer is in two
places, and the gate is guarded. -/
structure Orderly (g : Geometry) (d : Dev) : Prop where
  fifos : Fifos g d
  disjoint : Disjoint d
  guarded : Guarded d

theorem step_orderly (hcalm : Calm d l) (hstep : step g bn d l = some (bn', d'))
    (h : Orderly g d) : Orderly g d' := by
  refine ⟨step_fifos hstep h.fifos, step_disjoint hstep (fun hre => ?_) h.fifos h.disjoint,
    step_guarded hcalm hstep h.fifos h.guarded⟩
  refine h.guarded.reclaim hcalm ?_
  cases l with
  | ctlStep p resetOk => exact .inl hre
  | _ => exact hre

theorem orderly_init (g : Geometry) : Orderly g (Dev.init g) := by
  rw [Dev.init_eq]
  refine ⟨⟨Side.fifo_empty, Side.fifo_empty⟩, ?_, ?_⟩
  · exact .fresh (g := g) rfl rfl ⟨fun _ => rfl, fun _ => rfl⟩
  · refine ⟨.empty fun x => ?_, fun p hp => ?_, fun p hp => ?_⟩
    · cases x <;> rfl
    · simp [CtlPc.closed] at hp
    · simp [CtlPc.drained] at hp

/-- In a calm run no call holds a buffer when the lists are rebuilt or the pool
is freed, and no buffer is on a free list while a call holds it. -/
theorem quiescent_reclaim {geo : Nat → Geometry} {i : Nat} {s t : Driver}
    {ls : List (Nat × Label)} (hinit : s.dev i = Dev.init (geo i))
    (hcalm : Machine.Along (Driver.step geo) (fun s l => l.1 = i → Calm (s.dev i) l.2) s ls)
    (hrun : Machine.exec (Driver.step geo) s ls = some t) :
    Machine.Along (Driver.step geo)
        (fun s l => l.1 = i → ReclaimStep (s.dev i) l.2 → (s.dev i).EmptyHanded) s ls ∧
      (∀ b ∈ (t.dev i).rd.free, ∀ p, (t.dev i).rdHeld p ≠ some b) ∧
      ∀ b ∈ (t.dev i).wt.free, ∀ p, (t.dev i).wtHeld p ≠ some b := by
  have hstart : Orderly (geo i) (s.dev i) := hinit ▸ orderly_init (geo i)
  have hend := Driver.invariant_along (I := Orderly (geo i)) (C := fun _ d l => Calm d l)
    (fun h hC hstep => step_orderly hC hstep h) hstart hcalm hrun
  refine ⟨Driver.along_of_invariant (I := Orderly (geo i)) (C := fun _ d l => Calm d l)
    (D := fun _ d l => ReclaimStep d l → d.EmptyHanded)
    (fun h hC hstep => step_orderly hC hstep h) (fun h hC hre => h.guarded.reclaim hC hre)
    hstart hcalm, fun b hb p hp => ?_, fun b hb p hp => ?_⟩
  · exact hend.disjoint.rd.off hp (List.mem_append_left _ (List.mem_append_left _ hb))
  · exact hend.disjoint.wt.off hp (List.mem_append_left _ (List.mem_append_left _ hb))

theorem calm_of_not_ctl (h : l.isCtl = false) : Calm d l := by
  cases l with
  | ctlStep => cases h
  | _ => trivial

theorem quiescent_reclaim_first_start :
    let s : Driver := ⟨{}, fun _ => Dev.init smallCard⟩
    let ls : List (Nat × Label) :=
      [(0, .ctlCall 0 .start), (0, .ctlStep 0 true), (0, .ctlStep 0 true), (0, .ctlStep 0 true),
        (0, .wtCall 0 4096 false)] ++ List.replicate 6 (0, .wtStep 0 (some []) false)
    ∃ t, Machine.exec (Driver.step fun _ => smallCard) s ls = some t ∧
      Machine.Along (Driver.step fun _ => smallCard)
        (fun s l => l.1 = 0 → ReclaimStep (s.dev 0) l.2 → (s.dev 0).EmptyHanded) s ls ∧
      (∀ b ∈ (t.dev 0).rd.free, ∀ p, (t.dev 0).rdHeld p ≠ some b) ∧
      ∀ b ∈ (t.dev 0).wt.free, ∀ p, (t.dev 0).wtHeld p ≠ some b := by
  intro s ls
  refine Machine.exists_end _ (by decide) fun t hrun => quiescent_reclaim (i := 0) rfl ?_ hrun
  refine .cons rfl (fun _ => trivial) (.cons rfl (fun _ => .inr ⟨fun _ => rfl, fun _ => rfl⟩)
    (.cons rfl (fun _ => trivial) (.cons rfl (fun _ q hq => ?_) ?_)))
  · cases q with
    | zero => exact absurd rfl hq
    | succ q => rfl
  · refine .mono (fun _ _ h _ => calm_of_not_ctl h)
      (Machine.along_of_forall (C := fun l : Nat × Label => l.2.isCtl = false) (by decide))

/-- A writer copies into buffer 0 while a second start stops DMA. The reset in
that stop fails, the start goes on, and buffer 0 is back on `wt_free` in use. -/
theorem restart_reclaims_buffer_in_use :
    ∃ t, Machine.exec (Driver.step fun _ => smallCard) ⟨{}, fun _ => Dev.init smallCard⟩
        ([(0, .ctlCall 0 .start)] ++ List.replicate 4 (0, .ctlStep 0 true) ++
          [(0, .wtCall 0 4096 false)] ++ List.replicate 4 (0, .wtStep 0 none false) ++
          [(0, .ctlCall 0 .start), (0, .ctlStep 0 true), (0, .ctlStep 0 true),
            (0, .ctlStep 0 false), (0, .ctlStep 0 true)]) = some t ∧
      ReclaimStep (t.dev 0) (.ctlStep 0 true) ∧ ¬ (t.dev 0).EmptyHanded ∧
      0 ∈ ((t.dev 0).ctlStep smallCard 0 true).wt.free ∧
      ((t.dev 0).ctlStep smallCard 0 true).wtHeld 0 = some 0 := by
  refine Machine.exists_end_view _ (fun t => ((t.dev 0).ctls 0, (t.dev 0).wtHeld 0))
    (v := (.startInit .ioctl, some 0)) (by decide) fun t _ hview => ?_
  obtain ⟨hctl, hheld⟩ := Prod.mk.inj hview
  have hre : Rebuilds (t.dev 0) 0 := .inl ⟨.ioctl, hctl⟩
  obtain ⟨-, hwt, -, hwh⟩ := ctlStep_rebuild (g := smallCard) hre true
  refine ⟨.inl hre, fun hempty => ?_, ?_, ?_⟩
  · rw [hempty.wt 0] at hheld
    cases hheld
  · rw [hwt]
    exact List.mem_range.mpr (by decide)
  · rw [hwh, hheld]

end PdmaXen.Pdma
