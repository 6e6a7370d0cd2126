import PdmaXen.Pdma.ReadStream

/-!
# What a `pdma_read` returns and touches

An observer of one device notes how long DMA has been off during each call. The
contract of a step speaks about the result of a call that returns in it and about
the bytes of `bbuf` and of the DMA buffer it touches.
-/

namespace PdmaXen.Pdma
set_option autoImplicit false
open Dev

def bbufSize : Nat := 16384

/-- How far a step reaches into `bbuf` and into the DMA buffer it holds, from their first
bytes on. The two loops that print bytes print 200 and 300 of them. -/
structure Touched where
  bbuf : Nat := 0
  dma : Nat := 0

def RdPc.touched (count : Nat) : RdPc → Touched
  | bounceCopy => { bbuf := max count 200 }
  | bounceClear => { bbuf := count }
  | copyBounce _ => { bbuf := count, dma := max count 300 }
  | copyUser _ => { dma := count }
  | _ => {}

/-- What the observer knows of the calls. -/
structure Watch where
  /-- DMA has been off ever since the call was made -/
  off : Pid → Bool := fun _ => false
  /-- DMA has been off at some time since -/
  seenOff : Pid → Bool := fun _ => true

def Label.makes (q : Pid) : Label → Bool
  | .rdCall p _ _ => p == q
  | _ => false

def Watch.see (w : Watch) (l : Label) (d : Dev) : Watch where
  off q := (l.makes q || w.off q) && !d.dmaEnable
  seenOff q := (!l.makes q && w.seenOff q) || !d.dmaEnable

/-- The module and an observer of its device `i`. -/
structure Watched where
  driver : Driver
  watch : Watch

def Watched.step (geo : Nat → Geometry) (i : Nat) (s : Watched) (l : Nat × Label) : Option Watched :=
  (Driver.step geo s.driver l).map fun r =>
    ⟨r, if l.1 = i then s.watch.see l.2 (r.dev i) else s.watch⟩

structure Returned (g : Geometry) (w : Watch) (count : Nat) (r : RdResult) : Prop where
  disabled : w.off r.pid = true → r.ret = -eio
  size : count ≠ g.rdBufSize → r.ret = -einval ∨ (w.seenOff r.pid = true ∧ r.ret = -eio)
  bytes : 0 ≤ r.ret → r.ret = count ∧ r.bytes.length = count

/-- The contract of the step from `d` to `d'`. -/
structure ReadContract (g : Geometry) (w : Watch) (d : Dev) (l : Label) (d' : Dev) : Prop where
  returned : ∀ r, d'.hist.results = d.hist.results ++ [r] →
    Returned g w (d.readers r.pid).count r
  bbuf : ∀ p copyOk sig, l = .rdStep p copyOk sig →
    ((d.readers p).pc.touched (d.readers p).count).bbuf ≤ bbufSize
  dma : ∀ p copyOk sig, l = .rdStep p copyOk sig →
    ((d.readers p).pc.touched (d.readers p).count).dma ≤ g.rdBufSize

def Admissible (g : Geometry) : Prop :=
  0 < g.rdBufSize ∧ 4096 ∣ g.rdBufSize ∧ g.rdBufSize ≤ 1024 * 1024

def RdPc.usesBbuf : RdPc → Bool
  | bounceCopy | copyBounce _ => true
  | _ => false

/-- A read that hands out `bbuf` has the size of a block and finds DMA on and a good user
buffer, and no block goes through `bbuf` that does not fit into it. -/
def BounceFits (g : Geometry) (d : Dev) : Label → Prop
  | .rdStep p copyOk _ =>
    ((d.readers p).pc = .bounceCopy →
        d.dmaEnable = true ∧ (d.readers p).count = g.rdBufSize ∧ copyOk = true) ∧
      ((d.readers p).pc.usesBbuf = true → g.rdBufSize ≤ bbufSize)
  | _ => True

instance (g : Geometry) (d : Dev) : (l : Label) → Decidable (BounceFits g d l)
  | .rdStep .. => inferInstanceAs (Decidable (_ ∧ _))
  | .rdCall .. | .wtCall .. | .wtStep .. | .isrCall .. | .isrStep .. | .ctlCall .. | .ctlStep .. =>
    isTrue trivial

/-- What a read has made sure of where it stands. -/
def RdProc.Promises (g : Geometry) (off seenOff : Bool) (r : RdProc) : Prop :=
  match r.pc with
  | .idle | .start | .bounceCopy | .enter | .checkEnable => True
  | .bounceClear | .bounceBump =>
    off = false ∧ r.count = g.rdBufSize ∧ g.rdBufSize ≤ bbufSize ∧ r.got.length = r.count
  | .checkSize => off = false
  | .release _ | .submit => off = false ∧ r.count = g.rdBufSize ∧ r.got.length = r.count
  | .exit ret =>
    (off = true → ret = -eio) ∧
      (r.count ≠ g.rdBufSize → ret = -einval ∨ (seenOff = true ∧ ret = -eio)) ∧
      (0 ≤ ret → ret = r.count ∧ r.got.length = r.count)
  | _ => off = false ∧ r.count = g.rdBufSize

/-- Every block that waits or is held is a whole one. -/
def Dev.WholeBlocks (g : Geometry) (d : Dev) : Prop :=
  ∀ b, (b ∈ d.rd.pending ∨ ∃ p, d.rdHeld p = some b) → (d.rd.mem b).length = g.rdBufSize

structure Reads (g : Geometry) (w : Watch) (d : Dev) : Prop where
  promises : ∀ p, (d.readers p).Promises g (w.off p) (w.seenOff p)
  whole : d.WholeBlocks g
  off : ∀ p, w.off p = true → d.dmaEnable = false
  seenOff : ∀ p, d.dmaEnable = false → w.seenOff p = true

namespace RdProc
variable {g : Geometry} {off off' seenOff seenOff' : Bool} {r : RdProc}

theorem Promises.mono (h : r.Promises g off seenOff) (hoff : off' = true → off = true)
    (hseen : seenOff = true → seenOff' = true) : r.Promises g off' seenOff' := by
  have hfalse : off = false → off' = false := by
    cases off' <;> simp_all
  unfold Promises at h ⊢
  cases hpc : r.pc <;> simp only [hpc] at h ⊢
  case exit ret =>
    obtain ⟨hdisabled, hsize, hbytes⟩ := h
    refine ⟨fun hyes => hdisabled (hoff hyes), fun hne => (hsize hne).imp_right ?_, hbytes⟩
    exact fun hret => ⟨hseen hret.1, hret.2⟩
  case checkSize => exact hfalse h
  all_goals exact ⟨hfalse h.1, h.2⟩

theorem Promises.mapWait (h : r.Promises g off seenOff) (f : Wait → Wait) :
    { r with pc := r.pc.mapWait f }.Promises g off seenOff := by
  unfold Promises at h ⊢
  cases hpc : r.pc <;> simp only [hpc, RdPc.mapWait] at h ⊢ <;> exact h

end RdProc

theorem Dev.setRd_self (d : Dev) (p : Pid) (pc : RdPc) :
    (d.setRd p pc).readers p = { d.readers p with pc := pc } :=
  Function.update_self ..

namespace Reads
variable {g : Geometry} {bn : Bounce} {w : Watch} {d : Dev} {p : Pid}

theorem not_off (h : Reads g w d) (hon : d.dmaEnable = true) : w.off p = false := by
  cases hoff : w.off p with
  | false => rfl
  | true =>
    have := h.off p hoff
    simp [hon] at this

theorem tryRead (hoff : w.off p = false) (hsize : (d.readers p).count = g.rdBufSize) :
    ((d.tryRead p).readers p).Promises g (w.off p) (w.seenOff p) := by
  unfold Dev.tryRead
  split
  · rw [setRd_self]
    exact ⟨hoff, hsize⟩
  · rw [setRd_self]
    split
    · refine ⟨fun hyes => ?_, fun hne => absurd hsize hne, fun hnonneg => ?_⟩
      · simp [hoff] at hyes
      · simp [eagain] at hnonneg
    · exact ⟨hoff, hsize⟩

theorem fails {r : RdProc} {err : Int} (hpos : 0 < err) (hoff : w.off p = false)
    (hsize : r.count = g.rdBufSize) :
    { r with pc := .exit (-err) }.Promises g (w.off p) (w.seenOff p) := by
  refine ⟨fun hyes => ?_, fun hne => absurd hsize hne, fun hnonneg => ?_⟩
  · simp [hoff] at hyes
  · omega

theorem rdStep (h : Reads g w d) {copyOk sig : Bool} (hfit : BounceFits g d (.rdStep p copyOk sig)) :
    ((d.rdStep g bn p copyOk sig).2.readers p).Promises g (w.off p) (w.seenOff p) := by
  have hp := h.promises p
  have hnot := h.not_off (p := p)
  have hseen := h.seenOff p
  have hwhole : ∀ b, (d.readers p).pc.held = some b → (d.rd.mem b).length = g.rdBufSize :=
    fun b hb => h.whole b (.inr ⟨p, hb⟩)
  unfold RdProc.Promises at hp
  unfold Dev.rdStep
  cases hpc : (d.readers p).pc <;> simp only [hpc, BounceFits] at hp hfit hwhole <;> dsimp only
  case idle => simp only [RdProc.Promises, hpc]
  case start =>
    rw [setRd_self]
    split <;> trivial
  case bounceCopy =>
    obtain ⟨hon, hsize, hcopy⟩ := hfit.1 trivial
    rw [if_pos hcopy, setRd_self]
    refine ⟨hnot hon, ?_, hfit.2 rfl, ?_⟩
    · rw [deliveredBounce]
      exact (gotBytes_count ..).trans hsize
    · simp [deliveredBounce, gotBytes, bytesOf]
  case bounceClear => rwa [setRd_self]
  case bounceBump =>
    rw [returnRead, setRd_self]
    trivial
  case enter =>
    rw [setRd_self]
    trivial
  case checkEnable =>
    rw [setRd_self]
    split
    case isTrue hon => exact hnot hon
    case isFalse hoff =>
      have hseen := hseen (by simpa using hoff)
      refine ⟨fun _ => rfl, fun _ => .inr ⟨hseen, rfl⟩, fun hnonneg => ?_⟩
      simp [eio] at hnonneg
  case checkSize =>
    rw [setRd_self]
    split
    case isTrue hsize => exact ⟨hp, hsize⟩
    case isFalse =>
      refine ⟨fun hyes => ?_, fun _ => .inl rfl, fun hnonneg => ?_⟩
      · simp [hp] at hyes
      · simp [einval] at hnonneg
  case tryRead => exact tryRead hp.1 hp.2
  case copyUser b =>
    obtain ⟨hoff, hsize⟩ := hp
    split
    · rw [setRd_self]
      refine ⟨hoff, ?_, ?_⟩
      · rw [delivered]
        exact (gotBytes_count ..).trans hsize
      · simp [delivered, gotBytes, hwhole b rfl, hsize]
    · rw [setRd_self]
      exact ⟨hoff, hsize⟩
  case requeue b =>
    rw [requeueRead, setRd_self]
    exact fails (by decide) hp.1 hp.2
  case release b =>
    rw [releaseRead, setRd_self]
    exact hp
  case submit =>
    obtain ⟨hoff, hsize, hgot⟩ := hp
    obtain ⟨n, st, _, _, _, heq⟩ := tryToSubmitReadNolock_eq g d
    rw [heq, setRd_self]
    refine ⟨fun hyes => ?_, fun hne => absurd hsize hne, fun _ => ⟨rfl, hgot⟩⟩
    simp [hoff] at hyes
  case asleep v =>
    split
    · rw [setRd_self]
      exact hp
    · split
      · rw [setRd_self]
        exact fails (by decide) hp.1 hp.2
      · simp only [RdProc.Promises, hpc]
        exact hp
  case prepared v =>
    rw [setRd_self]
    split <;> exact hp
  case finish =>
    rw [setRd_self]
    split
    · exact fails (by decide) hp.1 hp.2
    · exact hp
  case relock =>
    split
    · exact tryRead hp.1 hp.2
    · rw [setRd_self]
      exact fails (by decide) hp.1 hp.2
  case exit ret =>
    rw [returnRead, setRd_self]
    trivial
  case copyBounce | bump | prepare =>
    rw [setRd_self]
    exact hp

end Reads

/-! ## Blocks stay whole -/

namespace Dev
variable {g : Geometry} {d d' : Dev} {p : Pid}

theorem WholeBlocks.mono (h : d.WholeBlocks g) (hmem : d'.rd.mem = d.rd.mem)
    (hsub : ∀ b, (b ∈ d'.rd.pending ∨ ∃ p, d'.rdHeld p = some b) →
      b ∈ d.rd.pending ∨ ∃ p, d.rdHeld p = some b) : d'.WholeBlocks g := by
  intro b hb
  rw [hmem]
  exact h b (hsub b hb)

theorem WholeBlocks.same (h : d.WholeBlocks g) (hmem : d'.rd.mem = d.rd.mem)
    (hpending : d'.rd.pending = d.rd.pending) (hheld : d'.rdHeld = d.rdHeld) :
    d'.WholeBlocks g :=
  h.mono hmem fun b hb => by rwa [hpending, hheld] at hb

theorem WholeBlocks.submit {e : Dev} (h : d.WholeBlocks g)
    (hrd : e.rd = (tryToSubmitReadNolock g d).rd) (hheld : e.rdHeld = d.rdHeld) :
    e.WholeBlocks g := by
  obtain ⟨n, st, _, _, _, heq⟩ := tryToSubmitReadNolock_eq g d
  rw [heq] at hrd
  exact h.same (by rw [hrd]; rfl) (by rw [hrd]; rfl) hheld

theorem held_of_update {b : Buf} (h : ∃ q, Function.update d.rdHeld p none q = some b) :
    ∃ q, d.rdHeld q = some b := by
  obtain ⟨q, hq⟩ := h
  by_cases hqp : q = p
  · subst q
    simp at hq
  · exact ⟨q, by rwa [Function.update_of_ne hqp] at hq⟩

theorem RdMove.whole (hm : RdMove g d p d') (hmem : d'.rd.mem = d.rd.mem) (h : d.WholeBlocks g) :
    d'.WholeBlocks g := by
  cases hm with
  | stay rd held => exact h.same (by rw [rd]) (by rw [rd]) held
  | take b rest pending _ rd held =>
    refine h.mono hmem fun c hc => ?_
    rw [rd, held] at hc
    rw [pending]
    rcases hc with hc | ⟨q, hq⟩
    · exact .inl (List.mem_cons_of_mem b hc)
    · by_cases hqp : q = p
      · subst q
        rw [Function.update_self] at hq
        obtain rfl := Option.some.inj hq
        exact .inl List.mem_cons_self
      · exact .inr ⟨q, by rwa [Function.update_of_ne hqp] at hq⟩
  | requeue b _ holds rd held =>
    refine h.mono hmem fun c hc => ?_
    rw [rd, held] at hc
    rcases hc with hc | hc
    · rcases List.mem_cons.mp hc with rfl | hc
      · exact .inr ⟨p, holds⟩
      · exact .inl hc
    · exact .inr (held_of_update hc)
  | release b _ rd held =>
    refine h.mono hmem fun c hc => ?_
    rw [rd, held] at hc
    exact hc.imp_right held_of_update
  | submit rd held => exact h.submit rd held

/-- A completed buffer holds a whole block, the others what they held. -/
theorem completeReads_whole {n : Nat} {blks : List Bytes} {d d' : Dev}
    (hfull : ∀ blk ∈ blks, blk.length = n) (heq : completeReads blks d = some d') (b : Buf) :
    (d'.rd.mem b).length = n ∨
      d'.rd.mem b = d.rd.mem b ∧ (b ∈ d'.rd.pending → b ∈ d.rd.pending) := by
  induction blks generalizing d with
  | nil =>
    cases heq
    exact .inr ⟨rfl, id⟩
  | cons blk blks ih =>
    rw [completeReads] at heq
    split at heq
    · cases heq
    · rename_i c rest hsubmit
      have hblk : blk.length = n := hfull blk List.mem_cons_self
      rcases ih (fun x hx => hfull x (List.mem_cons_of_mem blk hx)) heq with hnow | ⟨hmem, hpending⟩
      · exact .inl hnow
      · simp only at hmem hpending
        by_cases hbc : b = c
        · subst hbc
          rw [Function.update_self] at hmem
          exact .inl (by rw [hmem, hblk])
        · rw [Function.update_of_ne hbc] at hmem
          refine .inr ⟨hmem, fun hb => ?_⟩
          rcases List.mem_append.mp (hpending hb) with hb | hb
          · exact hb
          · exact absurd (List.mem_singleton.mp hb) hbc

theorem notifyReads_whole {blks : List Bytes} (hlen : blks.length ≤ d.rd.submit.length)
    (hfull : ∀ blk ∈ blks, blk.length = g.rdBufSize) (h : d.WholeBlocks g)
    (heq : notifyReads g blks d = some d') : d'.WholeBlocks g := by
  unfold notifyReads at heq
  split at heq
  · cases heq
    exact h
  · obtain ⟨mem, st, _, _, hdone⟩ := completeReads_eq blks d hlen
    rw [hdone, Option.map_some] at heq
    obtain ⟨n, st', _, _, _, htry⟩ := tryToSubmitReadNolock_eq g
      { d with
        rd := { d.rd with
          submit := d.rd.submit.drop blks.length
          pending := d.rd.pending ++ d.rd.submit.take blks.length
          mem := mem
          submitCnt := d.rd.submitCnt - blks.length
          done := d.rd.done + blks.length }
        stat := st
        hist := { d.hist with completed := d.hist.completed ++ blks } }
    obtain rfl := (Option.some.inj heq).symm.trans htry
    intro b hb
    rcases completeReads_whole hfull hdone b with hnow | ⟨hmem, hpending⟩
    · exact hnow
    · have hold := h b (hb.imp_left hpending)
      rw [← hmem] at hold
      exact hold

theorem notifyWrites_rd {n : Nat} (hlen : n ≤ d.wt.submit.length)
    (heq : notifyWrites g n d = some d') : d'.rd = d.rd ∧ d'.rdHeld = d.rdHeld := by
  obtain ⟨m, st, _, _, _, _, hdone⟩ := notifyWrites_eq g n d hlen
  obtain rfl := Option.some.inj (heq.symm.trans hdone)
  exact ⟨rfl, rfl⟩

theorem isrStep_whole {blks : List Bytes} {n : Nat} (hf : Fifos g d) (h : d.WholeBlocks g)
    (hstep : d.isrStep g p blks n = some d') : d'.WholeBlocks g := by
  cases isrStep_halves hf.rd hf.wt hstep with
  | idle _ eq | off _ _ eq | wakeWt _ eq =>
    rw [eq]
    exact h
  | wakeRd _ _ eq =>
    rw [eq]
    exact h.same rfl rfl (rdHeld_wakeRdque d)
  | notify _ _ reads writes full c e first wt second eq =>
    have hmid := notifyReads_whole reads full h first
    obtain ⟨hrd, hheld⟩ := notifyWrites_rd (wt ▸ writes) second
    rw [eq]
    exact hmid.same (congrArg Side.mem hrd) (congrArg Side.pending hrd) hheld

theorem ctlStep_whole (h : d.WholeBlocks g) (resetOk : Bool) :
    (d.ctlStep g p resetOk).WholeBlocks g := by
  by_cases hre : Rebuilds d p
  · obtain ⟨hrd, _, hheld, _⟩ := ctlStep_rebuild (g := g) hre resetOk
    refine h.mono (by rw [hrd]) fun b hb => ?_
    rw [hrd, hheld] at hb
    refine hb.imp_left fun hnone => ?_
    cases hnone
  · obtain ⟨hrd, hheld⟩ := ctlStep_rd (g := g) hre resetOk
    rcases hrd with hrd | hrd
    · exact h.same (by rw [hrd]) (by rw [hrd]) hheld
    · exact h.submit hrd hheld

end Dev

variable {g : Geometry} {bn bn' : Bounce} {w : Watch} {d d' : Dev} {l : Label} {p : Pid}

theorem step_whole (hf : Fifos g d) (hstep : step g bn d l = some (bn', d'))
    (h : d.WholeBlocks g) : d'.WholeBlocks g := by
  cases step_cases hstep with
  | rdCall p count nonblock hidle => exact h.same rfl rfl (rdHeld_call hidle count nonblock)
  | rdStep p copyOk sig =>
    exact (rdStep_move g bn d p copyOk sig).whole (rdStep_mem g bn d p copyOk sig) h
  | wtStep p copied sig =>
    obtain ⟨_, _, _, _, _, heq⟩ := wtStep_frame g d p copied sig
    rw [heq]
    exact h
  | isrStep p blks n _ he => exact isrStep_whole hf h he
  | ctlStep p resetOk => exact ctlStep_whole h resetOk
  | _ => exact h

/-! ## Every step -/

/-- The readers stand where they stood, but for their wait entries. -/
def Dev.ReadersWait (d d' : Dev) : Prop :=
  ∃ f, ∀ q, d'.readers q = { d.readers q with pc := (d.readers q).pc.mapWait f }

theorem Dev.ReadersWait.same (h : d'.readers = d.readers) : d.ReadersWait d' := by
  refine ⟨id, fun q => ?_⟩
  rw [h, RdPc.mapWait_id]

theorem isrStep_readers {blks : List Bytes} {n : Nat} (hf : Fifos g d)
    (hstep : d.isrStep g p blks n = some d') :
    d.ReadersWait d' ∧ d'.hist.results = d.hist.results := by
  cases isrStep_move hf.rd hf.wt hstep with
  | wakeRd wtToo _ eq =>
    rw [eq]
    exact ⟨⟨Wait.wake, fun _ => rfl⟩, rfl⟩
  | idle _ eq | off _ _ eq | wakeWt _ eq | notify _ _ _ _ _ _ _ _ _ _ _ _ _ _ _ _ _ _ eq =>
    rw [eq]
    exact ⟨.same rfl, rfl⟩

theorem ctlStep_readers (d : Dev) (p : Pid) (resetOk : Bool) :
    d.ReadersWait (d.ctlStep g p resetOk) ∧
      (d.ctlStep g p resetOk).hist.results = d.hist.results := by
  unfold ctlStep
  cases hpc : d.ctls p <;> dsimp only
  case stopWakeRd => exact ⟨⟨Wait.wake, fun _ => rfl⟩, rfl⟩
  case ctrlInit =>
    unfold Dev.ctrlInit
    rw [listInit_eq]
    exact ⟨⟨Wait.forget, fun _ => rfl⟩, rfl⟩
  case startInit =>
    rw [listInit_eq]
    exact ⟨.same rfl, rfl⟩
  case startSubmit =>
    obtain ⟨n, st, _, _, _, heq⟩ := tryToSubmitReadNolock_eq g d
    rw [heq]
    exact ⟨.same rfl, rfl⟩
  case stopCheck => split <;> exact ⟨.same rfl, rfl⟩
  all_goals exact ⟨.same rfl, rfl⟩

theorem rdStep_results (bn : Bounce) (d : Dev) (p : Pid) (copyOk sig : Bool) :
    (d.rdStep g bn p copyOk sig).2.hist.results = d.hist.results ∨
      ∃ ret, ((d.readers p).pc = .exit ret ∨
          ((d.readers p).pc = .bounceBump ∧ ret = (d.readers p).count)) ∧
        (d.rdStep g bn p copyOk sig).2.hist.results =
          d.hist.results ++ [⟨p, ret, (d.readers p).got⟩] := by
  unfold rdStep
  cases hpc : (d.readers p).pc <;> dsimp only
  case bounceBump => exact .inr ⟨_, .inr ⟨rfl, rfl⟩, rfl⟩
  case exit ret => exact .inr ⟨ret, .inl rfl, rfl⟩
  case submit =>
    obtain ⟨n, st, _, _, _, heq⟩ := tryToSubmitReadNolock_eq g d
    rw [heq]
    exact .inl rfl
  case tryRead =>
    unfold tryRead
    split <;> exact .inl rfl
  case relock =>
    unfold tryRead
    split
    · split <;> exact .inl rfl
    · exact .inl rfl
  case bounceCopy | copyUser => split <;> exact .inl rfl
  case asleep =>
    split
    · exact .inl rfl
    · split <;> exact .inl rfl
  all_goals exact .inl rfl

theorem step_results (hf : Fifos g d) (hstep : step g bn d l = some (bn', d')) :
    d'.hist.results = d.hist.results ∨
      ∃ p ret, ((d.readers p).pc = .exit ret ∨
          ((d.readers p).pc = .bounceBump ∧ ret = (d.readers p).count)) ∧
        d'.hist.results = d.hist.results ++ [⟨p, ret, (d.readers p).got⟩] := by
  cases step_cases hstep with
  | rdStep p copyOk sig => exact (rdStep_results bn d p copyOk sig).imp_right fun h => ⟨p, h⟩
  | wtStep p copied sig =>
    obtain ⟨_, _, _, _, _, heq⟩ := wtStep_frame g d p copied sig
    exact .inl (by rw [heq])
  | isrStep p blks n _ he => exact .inl (isrStep_readers hf he).2
  | ctlStep p resetOk => exact .inl (ctlStep_readers d p resetOk).2
  | _ => exact .inl rfl

/-- A call other than the one that is made goes on under the observer. -/
theorem RdProc.Promises.goes_on {r : RdProc} {q : Pid}
    (h : r.Promises g (w.off q) (w.seenOff q)) (hl : l.makes q = false) (d' : Dev) :
    r.Promises g ((w.see l d').off q) ((w.see l d').seenOff q) := by
  refine h.mono (fun hoff => ?_) (fun hseen => ?_)
  · simp only [Watch.see, hl, Bool.false_or, Bool.and_eq_true] at hoff
    exact hoff.1
  · simp [Watch.see, hl, hseen]

theorem Dev.ReadersWait.promises (hw : d.ReadersWait d') (h : Reads g w d) (q : Pid) :
    (d'.readers q).Promises g (w.off q) (w.seenOff q) := by
  obtain ⟨f, hf⟩ := hw
  rw [hf q]
  exact (h.promises q).mapWait f

theorem step_promises (h : Reads g w d) (hf : Fifos g d) (hfit : BounceFits g d l)
    (hstep : step g bn d l = some (bn', d')) (q : Pid) :
    (d'.readers q).Promises g ((w.see l d').off q) ((w.see l d').seenOff q) := by
  have hq := h.promises q
  cases step_cases hstep with
  | rdCall p count nonblock hidle =>
    by_cases hqp : q = p
    · subst q
      simp only [Function.update_self]
      trivial
    · simp only [Function.update_of_ne hqp]
      exact hq.goes_on (by simp [Label.makes, Ne.symm hqp]) _
  | rdStep p copyOk sig =>
    by_cases hqp : q = p
    · subst q
      exact (h.rdStep hfit).goes_on rfl _
    · rw [(rdStep_stepped g bn d p copyOk sig).others q hqp]
      exact hq.goes_on rfl _
  | wtStep p copied sig =>
    obtain ⟨_, _, _, _, _, heq⟩ := wtStep_frame g d p copied sig
    rw [heq]
    exact hq.goes_on rfl _
  | isrStep p blks n _ he => exact ((isrStep_readers hf he).1.promises h q).goes_on rfl _
  | ctlStep p resetOk => exact ((ctlStep_readers d p resetOk).1.promises h q).goes_on rfl _
  | wtCall | isrCall | ctlCall => exact hq.goes_on rfl _

theorem step_reads (hf : Fifos g d) (hfit : BounceFits g d l)
    (hstep : step g bn d l = some (bn', d')) (h : Reads g w d) : Reads g (w.see l d') d' := by
  refine ⟨step_promises h hf hfit hstep, step_whole hf hstep h.whole, fun q hoff => ?_,
    fun q hoff => ?_⟩
  · simp only [Watch.see, Bool.and_eq_true, Bool.not_eq_true'] at hoff
    exact hoff.2
  · simp [Watch.see, hoff]

theorem Reads.touched (h : Reads g w d) (hg : Admissible g) {copyOk sig : Bool}
    (hfit : BounceFits g d (.rdStep p copyOk sig)) :
    ((d.readers p).pc.touched (d.readers p).count).bbuf ≤ bbufSize ∧
      ((d.readers p).pc.touched (d.readers p).count).dma ≤ g.rdBufSize := by
  obtain ⟨hpos, haligned, hle⟩ := hg
  have hmin := Nat.le_of_dvd hpos haligned
  have hp := h.promises p
  unfold RdProc.Promises at hp
  cases hpc : (d.readers p).pc <;> simp only [hpc, BounceFits, RdPc.usesBbuf, RdPc.touched] at hp hfit ⊢
  case bounceCopy =>
    obtain ⟨_, hsize, _⟩ := hfit.1 trivial
    have hbbuf := hfit.2 trivial
    simp only [bbufSize] at hbbuf ⊢
    omega
  case copyBounce =>
    have hbbuf := hfit.2 trivial
    omega
  all_goals omega

theorem step_contract (hg : Admissible g) (hf : Fifos g d) (hfit : BounceFits g d l)
    (hstep : step g bn d l = some (bn', d')) (h : Reads g w d) : ReadContract g w d l d' := by
  refine ⟨fun r hr => ?_, ?_, ?_⟩
  · rcases step_results hf hstep with hsame | ⟨p, ret, hpc, happend⟩
    · rw [hsame] at hr
      simp at hr
    · obtain rfl : r = ⟨p, ret, (d.readers p).got⟩ := by
        have := hr.symm.trans happend
        simpa using this
      have hp := h.promises p
      unfold RdProc.Promises at hp
      rcases hpc with hpc | ⟨hpc, rfl⟩
      · rw [hpc] at hp
        exact ⟨hp.1, hp.2.1, hp.2.2⟩
      · rw [hpc] at hp
        obtain ⟨hoff, hsize, _, hgot⟩ := hp
        refine ⟨fun hyes => ?_, fun hne => absurd hsize hne, fun _ => ⟨rfl, hgot⟩⟩
        simp [hoff] at hyes
  · rintro p copyOk sig rfl
    exact (h.touched hg hfit).1
  · rintro p copyOk sig rfl
    exact (h.touched hg hfit).2

theorem Reads.init (g : Geometry) : Reads g {} (Dev.init g) := by
  rw [Dev.init_eq]
  refine ⟨fun p => trivial, fun b hb => ?_, fun p hoff => ?_, fun p _ => rfl⟩
  · rcases hb with hb | ⟨p, hp⟩
    · cases hb
    · cases hp
  · cases hoff

theorem Fifos.init (g : Geometry) : Fifos g (Dev.init g) := by
  rw [Dev.init_eq]
  exact ⟨Side.fifo_empty, Side.fifo_empty⟩

/-- From the loaded module on, in any run in which `bbuf` is only handed out to reads that
a look at the device would have let through, and only with blocks that fit into it. -/
theorem read_contract {geo : Nat → Geometry} {i : Nat} {r : Driver} {ls : List (Nat × Label)}
    (hg : Admissible (geo i)) (hinit : r.dev i = Dev.init (geo i))
    (hfit : Machine.Along (Watched.step geo i)
      (fun s l => l.1 = i → BounceFits (geo i) (s.driver.dev i) l.2) ⟨r, {}⟩ ls) :
    Machine.Along (Watched.step geo i) (fun s l => ∀ t, Watched.step geo i s l = some t → l.1 = i →
      ReadContract (geo i) s.watch (s.driver.dev i) l.2 (t.driver.dev i)) ⟨r, {}⟩ ls := by
  refine Machine.along_of_invariant
    (I := fun s : Watched => Reads (geo i) s.watch (s.driver.dev i) ∧ Fifos (geo i) (s.driver.dev i))
    ?_ ?_ ?_ hfit
  · rintro s l t ⟨hreads, hfifos⟩ hfits hstep
    obtain ⟨u, hu, rfl⟩ := Option.map_eq_some_iff.mp hstep
    obtain ⟨⟨bn, d⟩, hd, rfl⟩ := Option.map_eq_some_iff.mp hu
    by_cases hi : l.1 = i
    · subst hi
      simp only [if_true, Function.update_self]
      exact ⟨step_reads hfifos (hfits rfl) hd hreads, step_fifos hd hfifos⟩
    · simp only [if_neg hi, Function.update_of_ne (Ne.symm hi)]
      exact ⟨hreads, hfifos⟩
  · rintro s l ⟨hreads, hfifos⟩ hfits t hstep rfl
    obtain ⟨u, hu, rfl⟩ := Option.map_eq_some_iff.mp hstep
    obtain ⟨⟨bn, d⟩, hd, rfl⟩ := Option.map_eq_some_iff.mp hu
    simp only [Function.update_self]
    exact step_contract hg hfifos (hfits rfl) hd hreads
  · simp only [hinit]
    exact ⟨.init (geo i), .init (geo i)⟩

def firstBlock (blk : Bytes) : List (Nat × Label) :=
  (0, .ctlCall 0 .start) :: List.replicate 4 (0, .ctlStep 0 true) ++
    [(0, .isrCall 0), (0, .isrStep 0 [blk] 0)]

theorem read_contract_one_read :
    let s : Watched := ⟨⟨{}, fun _ => Dev.init smallCard⟩, {}⟩
    let ls := firstBlock (List.replicate 4096 7) ++ (0, .rdCall 1 4096 false) ::
      List.replicate 11 (0, .rdStep 1 true false)
    Machine.Along (Watched.step (fun _ => smallCard) 0)
      (fun s l => ∀ t, Watched.step (fun _ => smallCard) 0 s l = some t → l.1 = 0 →
        ReadContract smallCard s.watch (s.driver.dev 0) l.2 (t.driver.dev 0)) s ls := by
  intro s ls
  refine @read_contract (fun _ => smallCard) 0 _ _ ?_ rfl ?_
  · exact ⟨by decide, by decide, by decide⟩
  · decide +kernel

/-- The read after it, of 5 bytes, returns 5; and the first read of a card with blocks of
five pages writes 4096 bytes behind `bbuf`. -/
theorem second_read_unchecked :
    let large : Geometry := { smallCard with rdBufSize := 20480 }
    (∃ s, Machine.exec (Watched.step (fun _ => smallCard) 0) ⟨⟨{}, fun _ => Dev.init smallCard⟩, {}⟩
        (firstBlock (List.replicate 4096 7) ++ (0, .rdCall 1 4096 false) ::
          List.replicate 11 (0, .rdStep 1 true false) ++ (0, .rdCall 2 5 false) ::
          List.replicate 3 (0, .rdStep 2 true false)) = some s ∧
      ∃ t, Watched.step (fun _ => smallCard) 0 s (0, .rdStep 2 true false) = some t ∧
        ¬ ReadContract smallCard s.watch (s.driver.dev 0) (.rdStep 2 true false) (t.driver.dev 0)) ∧
    ∃ s, Machine.exec (Watched.step (fun _ => large) 0) ⟨⟨{}, fun _ => Dev.init large⟩, {}⟩
        (firstBlock (List.replicate 20480 7) ++ (0, .rdCall 1 20480 false) ::
          List.replicate 5 (0, .rdStep 1 true false)) = some s ∧
      ∃ t, Watched.step (fun _ => large) 0 s (0, .rdStep 1 true false) = some t ∧
        ¬ ReadContract large s.watch (s.driver.dev 0) (.rdStep 1 true false) (t.driver.dev 0) := by
  intro large
  constructor
  · refine Machine.exists_end_view _ (fun s : Watched =>
        (((s.driver.dev 0).readers 2).pc, ((s.driver.dev 0).readers 2).count))
      (v := (.bounceBump, 5)) (by decide +kernel) fun s hrun hview => ?_
    simp only [Prod.mk.injEq] at hview
    obtain ⟨hpc, hcount⟩ := hview
    refine ⟨_, rfl, fun hcontract => ?_⟩
    have hret := hcontract.returned ⟨2, 5, ((s.driver.dev 0).readers 2).got⟩ ?_
    · have hsize := hret.size (by rw [hcount]; decide)
      simp [einval, eio] at hsize
    · simp only [Function.update_self, Dev.rdStep, hpc, hcount]
      rfl
  · refine Machine.exists_end_view _ (fun s : Watched =>
        (((s.driver.dev 0).readers 1).pc, ((s.driver.dev 0).readers 1).count))
      (v := (.copyBounce 0, 20480)) (by decide +kernel) fun s hrun hview => ?_
    simp only [Prod.mk.injEq] at hview
    obtain ⟨hpc, hcount⟩ := hview
    refine ⟨_, rfl, fun hcontract => ?_⟩
    have hbbuf := hcontract.bbuf 1 true false rfl
    rw [hpc, hcount] at hbbuf
    exact absurd hbbuf (by decide)

end PdmaXen.Pdma
