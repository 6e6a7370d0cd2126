import PdmaXen.Pdma.Moves

/-!
# Writes are posted in the order of their calls

A block reaches the hardware from the writer itself or later from the interrupt
that drains `wt_pending`. Both paths restore one fact: something is pending only
while the FIFO is full.
-/

namespace PdmaXen.Pdma
set_option autoImplicit false
open Dev

/-- The committed buffers are those sent to the FIFO followed by those pending. -/
structure InOrder (g : Geometry) (d : Dev) : Prop where
  sent : ∃ sent, d.hist.committed = sent ++ d.wt.pending ∧ d.wt.posted = sent.map g.wtPhys
  full : d.wt.pending ≠ [] → d.wt.submitCnt = wtFifoDepth

variable {g : Geometry} {d d' : Dev} {bn bn' : Bounce} {l : Label}

theorem InOrder.congr (h : InOrder g d) (hwt : d'.wt = d.wt)
    (hhist : d'.hist.committed = d.hist.committed) : InOrder g d' :=
  ⟨by rw [hwt, hhist]; exact h.sent, by rw [hwt]; exact h.full⟩

theorem Dev.WtMove.inOrder {p : Pid} (hm : WtMove g d p d') (hf : d.wt.Fifo g.wtPhys)
    (h : InOrder g d) : InOrder g d' := by
  cases hm with
  | stay mem wt _ hist =>
    refine ⟨?_, ?_⟩
    · rw [wt, hist]
      exact h.sent
    · rw [wt]
      exact h.full
  | take b rest _ _ wt _ hist =>
    refine ⟨?_, ?_⟩
    · rw [wt, hist]
      exact h.sent
    · rw [wt]
      exact h.full
  | requeue b _ _ wt _ hist =>
    refine ⟨?_, ?_⟩
    · rw [wt, hist]
      exact h.sent
    · rw [wt]
      exact h.full
  | post b _ room wt _ hist =>
    -- room in the FIFO, so nothing is pending and the block is next in line
    have hnil : d.wt.pending = [] := by
      by_contra hne
      have hfull := h.full hne
      omega
    obtain ⟨sent, hcommitted, hposted⟩ := h.sent
    refine ⟨⟨sent ++ [b], ?_, ?_⟩, ?_⟩
    · rw [wt, hist]
      simp only [Side.post, hcommitted, hnil, List.append_nil]
    · rw [wt]
      simp only [Side.post, fifoWord_submitWords, hposted, List.map_append, List.map_cons,
        List.map_nil]
    · rw [wt]
      exact fun hne => absurd hnil hne
  | pend b _ full wt _ hist =>
    obtain ⟨sent, hcommitted, hposted⟩ := h.sent
    refine ⟨⟨sent, ?_, ?_⟩, fun _ => ?_⟩
    · rw [wt, hist]
      simp only [hcommitted, List.append_assoc]
    · rw [wt]
      exact hposted
    · have hcnt := hf.cnt
      have hdepth := hf.depth
      rw [wt]
      simp only [wtFifoDepth, rdFifoDepth] at *
      omega
  | lose b _ _ wt _ hist => exact h.congr wt (by rw [hist])

theorem Dev.IsrMove.inOrder {p : Pid} {blks : List Bytes} {n : Nat}
    (hm : IsrMove g d p blks n d') (h : InOrder g d) : InOrder g d' := by
  cases hm with
  | idle _ eq => rwa [eq]
  | off _ _ eq => exact h.congr (by rw [eq]; rfl) (by rw [eq]; rfl)
  | wakeRd _ _ eq => exact h.congr (by rw [eq]; rfl) (by rw [eq]; rfl)
  | wakeWt _ eq => exact h.congr (by rw [eq]; rfl) (by rw [eq]; rfl)
  | notify _ _ _ _ _ k m mem st _ _ _ _ _ wtPending wtRoom wtStop wtNone eq =>
    rw [eq]
    obtain ⟨sent, hcommitted, hposted⟩ := h.sent
    refine ⟨⟨sent ++ d.wt.pending.take m, ?_, ?_⟩, ?_⟩
    · simp only [setIsr, Side.postTake, hcommitted, List.append_assoc, List.take_append_drop]
    · simp only [setIsr, Side.postTake, Side.reap, hposted, List.map_append]
    · intro hne
      simp only [setIsr, Side.postTake, Side.reap] at hne ⊢
      have hlt : m < d.wt.pending.length := by
        by_contra hge
        exact hne (List.drop_of_length_le (by omega))
      have hfull := h.full (by rintro hnil; simp [hnil] at hlt)
      by_cases hn : n = 0
      · rw [wtNone hn, hn]
        simpa using hfull
      · have hstop := wtStop hn
        omega

theorem step_inOrder (hl : l.isCtlCall = false) (hstep : step g bn d l = some (bn', d'))
    (hf : Fifos g d) (hrun : Running d) (h : InOrder g d) : InOrder g d' := by
  cases step_cases hstep with
  | rdStep p copyOk sig =>
    obtain ⟨_, _, _, _, _, _, heq⟩ := rdStep_frame g bn d p copyOk sig
    rw [heq]
    exact h.congr rfl rfl
  | wtStep p copied sig => exact (wtStep_move g d p copied sig).inOrder hf.wt h
  | isrStep p blks n _ he => exact (isrStep_move hf.rd hf.wt he).inOrder h
  | ctlCall => cases hl
  | ctlStep p resetOk =>
    unfold ctlStep
    rcases hrun.tail p with hp | ⟨k, hp⟩ <;> rw [hp] <;> dsimp only
    · exact h
    · obtain ⟨n, st, _, _, _, heq⟩ := tryToSubmitReadNolock_eq g d
      rw [heq]
      exact h.congr rfl rfl
  | _ => exact h.congr rfl rfl

theorem Starts.inOrder {d₀ : Dev} (h : Starts g d₀ d) : InOrder g d := by
  obtain ⟨p, k, hp, -, rfl⟩ := h
  unfold ctlStep
  rw [hp]
  dsimp only
  rw [listInit_eq]
  exact ⟨⟨[], rfl, rfl⟩, fun hne => absurd rfl hne⟩

/-- Between a start and the next stop the buffers posted to the write FIFO are a
prefix of the committed ones; a writer posts directly only when nothing is
pending; and something is pending only at a full FIFO. -/
theorem write_order {geo : Nat → Geometry} {i : Nat} {d₀ : Dev} {s t : Driver}
    {ls : List (Nat × Label)} (hstart : Starts (geo i) d₀ (s.dev i))
    (hls : ∀ l ∈ ls, l.1 = i → l.2.isCtlCall = false)
    (hrun : Machine.exec (Driver.step geo) s ls = some t) :
    (∃ sent, (t.dev i).hist.committed = sent ++ (t.dev i).wt.pending ∧
        (t.dev i).wt.posted = sent.map (geo i).wtPhys) ∧
      (∀ p copied sig, ((t.dev i).wtStep (geo i) p copied sig).wt.posted ≠ (t.dev i).wt.posted →
        (t.dev i).wt.pending = []) ∧
      ((t.dev i).wt.pending ≠ [] → (t.dev i).wt.submitCnt = 128) := by
  have hinv := Driver.invariant_along (C := fun _ _ l => l.isCtlCall = false)
    (I := fun d => Fifos (geo i) d ∧ Running d ∧ InOrder (geo i) d)
    (fun h hl hstep => ⟨step_fifos hstep h.1, step_running hl hstep h.1 h.2.1,
      step_inOrder hl hstep h.1 h.2.1 h.2.2⟩)
    ⟨hstart.fifos, hstart.running, hstart.inOrder⟩ (Machine.along_of_forall hls) hrun
  have horder := hinv.2.2
  refine ⟨horder.sent, fun p copied sig hne => ?_, horder.full⟩
  cases wtStep_move (geo i) (t.dev i) p copied sig with
  | post b _ room _ _ _ =>
    by_contra hpend
    have hfull := horder.full hpend
    omega
  | stay _ wt _ _ | take _ _ _ _ wt _ _ | requeue _ _ _ wt _ _ | pend _ _ _ wt _ _
  | lose _ _ _ wt _ _ => exact absurd (by rw [wt]) hne

theorem write_order_two_writers :
    let d₀ := (Dev.init smallCard).setCtl 0 (.startInit .ioctl)
    let s : Driver := ⟨{}, fun _ => d₀.ctlStep smallCard 0 true⟩
    ∃ t, Machine.exec (Driver.step fun _ => smallCard) s
        ([(0, .wtCall 0 4096 false), (0, .wtCall 1 4096 false)] ++
          List.replicate 6 (0, .wtStep 1 (some []) false) ++
          List.replicate 6 (0, .wtStep 0 (some []) false)) = some t ∧
      (∃ sent, (t.dev 0).hist.committed = sent ++ (t.dev 0).wt.pending ∧
        (t.dev 0).wt.posted = sent.map smallCard.wtPhys) ∧
      (∀ p copied sig, ((t.dev 0).wtStep smallCard p copied sig).wt.posted ≠ (t.dev 0).wt.posted →
        (t.dev 0).wt.pending = []) ∧
      ((t.dev 0).wt.pending ≠ [] → (t.dev 0).wt.submitCnt = 128) := by
  intro d₀ s
  refine Machine.exists_end _ (by decide) fun t hrun =>
    write_order (i := 0) (?_ : Starts _ d₀ _) (by decide) hrun
  exact ⟨0, .ioctl, rfl, fun q hq => Function.update_of_ne hq _ _, rfl⟩

end PdmaXen.Pdma
