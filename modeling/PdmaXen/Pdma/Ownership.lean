import PdmaXen.Pdma.Counting

/-!
# Every buffer is in one place

The ownership invariant of both pools. It survives every step of every call, and
a rebuild of the lists as long as no call holds a buffer at that moment.
-/

namespace PdmaXen.Pdma
set_option autoImplicit false
open Pool

theorem count_take_add_count_drop (b : Buf) (n : Nat) (l : List Buf) :
    (l.take n).count b + (l.drop n).count b = l.count b := by
  rw [← List.count_append, List.take_append_drop]

namespace Side
variable {s : Side} {phys : Buf → DmaAddr} {b : Buf} {n k : Nat}

theorem listed_take_pending {rest : List Buf} (h : s.pending = b :: rest) :
    s.listed.Perm (b :: { s with pending := rest }.listed) := by
  simp only [listed, h]
  exact List.perm_middle

theorem listed_take_free {rest : List Buf} (h : s.free = b :: rest) :
    s.listed.Perm (b :: { s with free := rest }.listed) := by
  simp only [listed, h, List.cons_append]
  exact List.Perm.refl _

theorem listed_put_pending : ({ s with pending := b :: s.pending } : Side).listed.Perm (b :: s.listed) :=
  List.perm_middle

theorem listed_put_free : ({ s with free := b :: s.free } : Side).listed.Perm (b :: s.listed) :=
  List.Perm.refl _

theorem listed_append_pending :
    ({ s with pending := s.pending ++ [b] } : Side).listed.Perm (b :: s.listed) := by
  rw [List.perm_iff_count]
  intro c
  simp only [listed, List.count_append, List.count_cons, List.count_nil]
  omega

theorem listed_append_free :
    ({ s with free := s.free ++ [b] } : Side).listed.Perm (b :: s.listed) := by
  rw [List.perm_iff_count]
  intro c
  simp only [listed, List.count_append, List.count_cons, List.count_nil]
  omega

theorem listed_post : (s.post phys b).listed.Perm (b :: s.listed) := by
  rw [List.perm_iff_count]
  intro c
  simp only [listed, post, List.count_append, List.count_cons, List.count_nil]
  omega

theorem listed_submit_free :
    s.listed.Perm { s.postTake phys s.free n with free := s.free.drop n }.listed := by
  rw [List.perm_iff_count]
  intro c
  have hfree := count_take_add_count_drop c n s.free
  simp only [listed, postTake, List.count_append]
  omega

theorem listed_notifyReads {mem : Buf → Bytes} :
    s.listed.Perm { (s.reap n).postTake phys s.free k with
      free := s.free.drop k, pending := s.pending ++ s.submit.take n, mem := mem }.listed := by
  rw [List.perm_iff_count]
  intro c
  have hfree := count_take_add_count_drop c k s.free
  have hsubmit := count_take_add_count_drop c n s.submit
  simp only [listed, postTake, reap, List.count_append]
  omega

theorem listed_notifyWrites :
    s.listed.Perm { (s.reap n).postTake phys s.pending k with
      free := s.free ++ s.submit.take n, pending := s.pending.drop k }.listed := by
  rw [List.perm_iff_count]
  intro c
  have hpending := count_take_add_count_drop c k s.pending
  have hsubmit := count_take_add_count_drop c n s.submit
  simp only [listed, postTake, reap, List.count_append]
  omega

end Side

structure Disjoint (d : Dev) : Prop where
  rd : Exclusive d.rd.listed d.rdHeld
  wt : Exclusive d.wt.listed d.wtHeld

/-- Both pools are accounted for: every buffer is listed or held. -/
structure Covered (g : Geometry) (d : Dev) : Prop where
  rd : Covers (· < g.rdBufNr) d.rd.listed d.rdHeld
  wt : Covers (· < g.wtBufNr) d.wt.listed d.wtHeld

namespace Dev
variable {g : Geometry} {d d' : Dev} {p : Pid}

theorem RdMove.exclusive (hm : RdMove g d p d') (h : Exclusive d.rd.listed d.rdHeld) :
    Exclusive d'.rd.listed d'.rdHeld := by
  cases hm with
  | stay rd held => rwa [rd, held]
  | take b rest pending _ rd held =>
    rw [rd, held]
    exact h.take (Side.listed_take_pending pending)
  | requeue b _ holds rd held =>
    rw [rd, held]
    exact h.put holds Side.listed_put_pending
  | release b holds rd held =>
    rw [rd, held]
    exact h.put holds Side.listed_append_free
  | submit rd held =>
    obtain ⟨n, st, _, _, _, heq⟩ := tryToSubmitReadNolock_eq g d
    rw [heq] at rd
    rw [rd, held]
    exact h.perm Side.listed_submit_free

theorem RdMove.covers {U : Buf → Prop} (hm : RdMove g d p d') (h : Covers U d.rd.listed d.rdHeld) :
    Covers U d'.rd.listed d'.rdHeld := by
  cases hm with
  | stay rd held => rwa [rd, held]
  | take b rest pending empty rd held =>
    rw [rd, held]
    exact h.take empty (Side.listed_take_pending pending)
  | requeue b _ holds rd held =>
    rw [rd, held]
    exact h.put holds Side.listed_put_pending
  | release b holds rd held =>
    rw [rd, held]
    exact h.put holds Side.listed_append_free
  | submit rd held =>
    obtain ⟨n, st, _, _, _, heq⟩ := tryToSubmitReadNolock_eq g d
    rw [heq] at rd
    rw [rd, held]
    exact h.perm Side.listed_submit_free

theorem WtMove.exclusive (hm : WtMove g d p d') (h : Exclusive d.wt.listed d.wtHeld) :
    Exclusive d'.wt.listed d'.wtHeld := by
  cases hm with
  | stay mem wt held _ =>
    rw [wt, held]
    exact h
  | take b rest free _ wt held _ =>
    rw [wt, held]
    exact h.take (Side.listed_take_free free)
  | requeue b _ holds wt held _ =>
    rw [wt, held]
    exact h.put holds Side.listed_put_free
  | post b holds _ wt held _ =>
    rw [wt, held]
    exact h.put holds Side.listed_post
  | pend b holds _ wt held _ =>
    rw [wt, held]
    exact h.put holds Side.listed_append_pending
  | lose b _ _ wt held _ =>
    rw [wt, held]
    exact h.drop

/-- Only a `pdma_write` that finds DMA stopped after its copy loses a buffer. -/
theorem WtMove.covers_or_lost (hm : WtMove g d p d') :
    (∀ {U : Buf → Prop}, Covers U d.wt.listed d.wtHeld → Covers U d'.wt.listed d'.wtHeld) ∨
      (d.dmaEnable = false ∧ d'.wt = d.wt ∧ d'.wtHeld = Function.update d.wtHeld p none) := by
  cases hm with
  | stay mem wt held _ =>
    rw [wt, held]
    exact .inl fun h => h
  | take b rest free empty wt held _ =>
    rw [wt, held]
    exact .inl fun h => h.take empty (Side.listed_take_free free)
  | requeue b _ holds wt held _ =>
    rw [wt, held]
    exact .inl fun h => h.put holds Side.listed_put_free
  | post b holds _ wt held _ =>
    rw [wt, held]
    exact .inl fun h => h.put holds Side.listed_post
  | pend b holds _ wt held _ =>
    rw [wt, held]
    exact .inl fun h => h.put holds Side.listed_append_pending
  | lose b _ off wt held _ => exact .inr ⟨off, wt, held⟩

theorem WtMove.covers {U : Buf → Prop} (hm : WtMove g d p d') (hon : d.dmaEnable = true)
    (h : Covers U d.wt.listed d.wtHeld) : Covers U d'.wt.listed d'.wtHeld := by
  rcases hm.covers_or_lost with hkept | ⟨hoff, _, _⟩
  · exact hkept h
  · simp [hon] at hoff

end Dev

open Dev

variable {g : Geometry} {d d' : Dev} {bn bn' : Bounce} {l : Label}

theorem listed_range (n : Nat) (mem : Buf → Bytes) :
    Side.listed { free := List.range n, mem := mem } = List.range n := by
  simp [Side.listed]

theorem Disjoint.fresh (hrd : d.rd = { free := List.range g.rdBufNr, mem := d.rd.mem })
    (hwt : d.wt = { free := List.range g.wtBufNr, mem := d.wt.mem })
    (hempty : d.EmptyHanded) : Disjoint d := by
  refine ⟨?_, ?_⟩
  · rw [hrd, listed_range]
    exact .of_none List.nodup_range hempty.rd
  · rw [hwt, listed_range]
    exact .of_none List.nodup_range hempty.wt

/-- What a step that rebuilds nothing does to the pools: one call moves a buffer of
its side, or the lists of a side are rearranged. -/
inductive PoolMove (g : Geometry) (d d' : Dev) : Prop where
  | rd (p : Pid) (move : RdMove g d p d') (wt : d'.wt = d.wt) (wtHeld : d'.wtHeld = d.wtHeld)
  | wt (p : Pid) (move : WtMove g d p d') (rd : d'.rd = d.rd) (rdHeld : d'.rdHeld = d.rdHeld)
  | perm (rd : d.rd.listed.Perm d'.rd.listed) (wt : d.wt.listed.Perm d'.wt.listed)
      (rdHeld : d'.rdHeld = d.rdHeld) (wtHeld : d'.wtHeld = d.wtHeld)

theorem PoolMove.same (hrd : d'.rd = d.rd) (hwt : d'.wt = d.wt) (hrh : d'.rdHeld = d.rdHeld)
    (hwh : d'.wtHeld = d.wtHeld) : PoolMove g d d' :=
  .perm (by rw [hrd]) (by rw [hwt]) hrh hwh

theorem step_pools (hstep : step g bn d l = some (bn', d')) (hre : ¬ RebuildStep d l)
    (hf : Fifos g d) : PoolMove g d d' := by
  cases step_cases hstep with
  | rdCall p count nonblock hidle => exact .same rfl rfl (rdHeld_call hidle count nonblock) rfl
  | rdStep p copyOk sig =>
    obtain ⟨_, _, _, _, _, _, heq⟩ := rdStep_frame g bn d p copyOk sig
    exact .rd p (rdStep_move g bn d p copyOk sig) (by rw [heq]) (by rw [heq]; rfl)
  | wtCall p count nonblock hidle => exact .same rfl rfl rfl (wtHeld_call hidle count nonblock)
  | wtStep p copied sig =>
    obtain ⟨_, _, _, _, _, heq⟩ := wtStep_frame g d p copied sig
    exact .wt p (wtStep_move g d p copied sig) (by rw [heq]) (by rw [heq]; rfl)
  | isrStep p blks n _ he =>
    cases isrStep_move hf.rd hf.wt he with
    | notify _ _ _ _ _ k m mem st _ _ _ _ _ _ _ _ _ eq =>
      rw [eq]
      exact .perm Side.listed_notifyReads Side.listed_notifyWrites rfl rfl
    | idle _ eq | off _ _ eq =>
      subst eq
      exact .same rfl rfl rfl rfl
    | wakeRd _ _ eq =>
      subst eq
      exact .same rfl rfl (rdHeld_wakeRdque d) rfl
    | wakeWt _ eq =>
      subst eq
      exact .same rfl rfl rfl (wtHeld_wakeWtque d)
  | isrCall | ctlCall => exact .same rfl rfl rfl rfl
  | ctlStep p resetOk =>
    obtain ⟨hrd, hrh⟩ := ctlStep_rd (g := g) hre resetOk
    obtain ⟨hwt, hwh⟩ := ctlStep_wt (g := g) hre resetOk
    rcases hrd with hrd | hrd
    · exact .same hrd hwt hrh hwh
    · exact .rd p (.submit hrd hrh) hwt hwh

theorem step_disjoint (hstep : step g bn d l = some (bn', d'))
    (hre : RebuildStep d l → d.EmptyHanded) (hf : Fifos g d) (h : Disjoint d) : Disjoint d' := by
  by_cases hrebuild : RebuildStep d l
  · obtain ⟨hrn, hwn⟩ := hre hrebuild
    cases step_cases hstep with
    | ctlStep p resetOk =>
      obtain ⟨hrd, hwt, hrh, hwh⟩ := ctlStep_rebuild (g := g) hrebuild resetOk
      exact .fresh (g := g) (by rw [hrd]) (by rw [hwt])
        ⟨by rw [hrh]; exact hrn, by rw [hwh]; exact hwn⟩
    | _ => exact hrebuild.elim
  · cases step_pools hstep hrebuild hf with
    | rd p move wt wtHeld => exact ⟨move.exclusive h.rd, by rw [wt, wtHeld]; exact h.wt⟩
    | wt p move rd rdHeld => exact ⟨by rw [rd, rdHeld]; exact h.rd, move.exclusive h.wt⟩
    | perm rd wt rdHeld wtHeld =>
      exact ⟨by rw [rdHeld]; exact h.rd.perm rd, by rw [wtHeld]; exact h.wt.perm wt⟩

/-- While DMA is on every step keeps both pools complete. -/
theorem step_covered (hstep : step g bn d l = some (bn', d')) (hre : ¬ RebuildStep d l)
    (hon : d.dmaEnable = true) (hf : Fifos g d) (h : Covered g d) :
    Covered g d' := by
  cases step_pools hstep hre hf with
  | rd p move wt wtHeld => exact ⟨move.covers h.rd, by rw [wt, wtHeld]; exact h.wt⟩
  | wt p move rd rdHeld => exact ⟨by rw [rd, rdHeld]; exact h.rd, move.covers hon h.wt⟩
  | perm rd wt rdHeld wtHeld =>
    exact ⟨by rw [rdHeld]; exact h.rd.perm rd, by rw [wtHeld]; exact h.wt.perm wt⟩

/-- What holds from a start on: nothing is lost, doubled or out of step with the FIFO. -/
structure Sound (g : Geometry) (d : Dev) : Prop where
  running : Running d
  fifos : Fifos g d
  disjoint : Disjoint d
  covered : Covered g d

theorem Starts.sound {d₀ : Dev} (h : Starts g d₀ d) (hempty : d₀.EmptyHanded) : Sound g d := by
  have hrun := h.running
  have hfifos := h.fifos
  obtain ⟨p, k, hp, -, rfl⟩ := h
  obtain ⟨hrd, hwt, hrh, hwh⟩ := ctlStep_rebuild (g := g) (.inl ⟨k, hp⟩) true
  have hempty' : (d₀.ctlStep g p true).EmptyHanded :=
    ⟨by rw [hrh]; exact hempty.rd, by rw [hwh]; exact hempty.wt⟩
  refine ⟨hrun, hfifos, .fresh (g := g) (by rw [hrd]) (by rw [hwt]) hempty', ?_, ?_⟩
  · rw [hrd, listed_range]
    exact .of_none (fun b => List.mem_range.symm) hempty'.rd
  · rw [hwt, listed_range]
    exact .of_none (fun b => List.mem_range.symm) hempty'.wt

theorem NoCalls.emptyHanded (h : NoCalls d) : d.EmptyHanded :=
  ⟨fun p => by rw [rdHeld, h.1 p]; rfl, fun p => by rw [wtHeld, h.2 p]; rfl⟩

theorem step_sound (hl : l.isCtlCall = false) (hstep : step g bn d l = some (bn', d'))
    (h : Sound g d) : Sound g d' := by
  have hre := h.running.no_rebuild l
  exact ⟨step_running hl hstep h.fifos h.running, step_fifos hstep h.fifos,
    step_disjoint hstep (fun hyes => absurd hyes hre) h.fifos h.disjoint,
    step_covered hstep hre h.running.on h.fifos h.covered⟩

/-- `b` is on one list of `s`, once, and nobody holds it; or it is on none and one call holds it. -/
def OnePlace (s : Side) (held : Pid → Option Buf) (b : Buf) : Prop :=
  (s.free.count b + s.submit.count b + s.pending.count b = 1 ∧ ∀ p, held p ≠ some b) ∨
    (b ∉ s.free ∧ b ∉ s.submit ∧ b ∉ s.pending ∧ ∃! p, held p = some b)

theorem onePlace_of_pool {s : Side} {held : Pid → Option Buf} {U : Buf → Prop} {b : Buf}
    (hex : Exclusive s.listed held) (hcov : Covers U s.listed held) (hb : U b) :
    OnePlace s held b := by
  rcases (hcov b).mp hb with hmem | ⟨p, hp⟩
  · refine .inl ⟨?_, fun p hp => hex.off hp hmem⟩
    have hone := List.count_eq_one_of_mem hex.nodup hmem
    simpa only [Side.listed, List.count_append] using hone
  · have hoff := hex.off hp
    simp only [Side.listed, List.mem_append, not_or] at hoff
    exact .inr ⟨hoff.1.1, hoff.1.2, hoff.2, p, hp, fun q hq => hex.single hq hp⟩

structure Side.Owned (s : Side) (phys : Buf → DmaAddr) (nr : Nat) (held : Pid → Option Buf) :
    Prop where
  place : ∀ b < nr, OnePlace s held b
  pool : ∀ b, b ∈ s.listed ∨ (∃ p, held p = some b) → b < nr
  cnt : s.submitCnt = s.submit.length
  depth : s.submitCnt ≤ 128
  order : s.submit.map phys = s.posted.drop s.done

theorem Side.Owned.of_pool {s : Side} {phys : Buf → DmaAddr} {nr : Nat} {held : Pid → Option Buf}
    (hfifo : s.Fifo phys) (hex : Exclusive s.listed held) (hcov : Covers (· < nr) s.listed held) :
    s.Owned phys nr held := by
  refine ⟨fun b hb => onePlace_of_pool hex hcov hb, fun b hb => (hcov b).mpr hb, hfifo.cnt, ?_,
    hfifo.order⟩
  have hcnt := hfifo.cnt
  have hdepth := hfifo.depth
  simp only [rdFifoDepth] at hdepth
  omega

/-- Buffer ownership between a start that found no call in progress and the next
stop, in any run of the module. -/
theorem buffer_ownership {geo : Nat → Geometry} {i : Nat} {d₀ : Dev} {s t : Driver}
    {ls : List (Nat × Label)} (hstart : Starts (geo i) d₀ (s.dev i)) (hcalls : NoCalls d₀)
    (hls : ∀ l ∈ ls, l.1 = i → l.2.isCtlCall = false)
    (hrun : Machine.exec (Driver.step geo) s ls = some t) :
    (t.dev i).rd.Owned (geo i).rdPhys (geo i).rdBufNr (t.dev i).rdHeld ∧
      (t.dev i).wt.Owned (geo i).wtPhys (geo i).wtBufNr (t.dev i).wtHeld := by
  have hsound : Sound (geo i) (t.dev i) :=
    Driver.invariant_along (C := fun _ _ l => l.isCtlCall = false)
      (fun h hl hstep => step_sound hl hstep h) (hstart.sound hcalls.emptyHanded)
      (Machine.along_of_forall hls) hrun
  exact ⟨.of_pool hsound.fifos.rd hsound.disjoint.rd hsound.covered.rd,
    .of_pool hsound.fifos.wt hsound.disjoint.wt hsound.covered.wt⟩

theorem buffer_ownership_two_writers :
    let d₀ := (Dev.init smallCard).setCtl 0 (.startInit .ioctl)
    let s : Driver := ⟨{}, fun _ => d₀.ctlStep smallCard 0 true⟩
    ∃ t, Machine.exec (Driver.step fun _ => smallCard) s
        ([(0, .ctlStep 0 true), (0, .wtCall 0 4096 false), (0, .wtCall 1 4096 false)] ++
          List.replicate 4 (0, .wtStep 0 none false) ++ List.replicate 6 (0, .wtStep 1 none false) ++
          [(0, .wtStep 0 (some []) false), (0, .wtStep 0 none false), (0, .isrCall 0),
            (0, .isrStep 0 [] 1)]) = some t ∧
      (t.dev 0).rd.Owned smallCard.rdPhys smallCard.rdBufNr (t.dev 0).rdHeld ∧
        (t.dev 0).wt.Owned smallCard.wtPhys smallCard.wtBufNr (t.dev 0).wtHeld := by
  intro d₀ s
  refine Machine.exists_end _ (by decide) fun t hrun =>
    buffer_ownership (i := 0) (?_ : Starts _ d₀ _) ⟨fun _ => rfl, fun _ => rfl⟩ (by decide) hrun
  exact ⟨0, .ioctl, rfl, fun q hq => Function.update_of_ne hq _ _, rfl⟩

end PdmaXen.Pdma
