import PdmaXen.Pdma.Flow

/-!
# The device without a failed call

A run is compared with the run in which one caller makes no calls. The other run keeps
the caller's part in `rw_cnt`, on which only the waiting time of a `pdma_dma_stop`
depends.
-/

namespace PdmaXen.Pdma
set_option autoImplicit false
open Machine

inductive Caller where
  | reader (p : Pid)
  | writer (p : Pid)
deriving DecidableEq

def Label.caller : Label → Option Caller
  | .rdCall p _ _ | .rdStep p _ _ => some (.reader p)
  | .wtCall p _ _ | .wtStep p _ _ => some (.writer p)
  | _ => none

namespace Caller

def Idle (d : Dev) : Caller → Prop
  | reader p => (d.readers p).pc = .idle
  | writer p => (d.writers p).pc = .idle

def held (d : Dev) : Caller → List Buf
  | reader _ => []
  | writer p => (d.wtHeld p).toList

end Caller

/-- A call that returns in this step returns an error. -/
def returnsError (d : Dev) : Label → Bool
  | .rdStep p _ _ =>
    match (d.readers p).pc with
    | .bounceBump => false
    | .exit ret => ret < 0
    | _ => true
  | .wtStep p _ _ =>
    match (d.writers p).pc with
    | .exit ret => ret < 0
    | _ => true
  | _ => true

/-- A read puts its block back, or a write has copied its data and finds DMA off. -/
def leavesTrace (d : Dev) : Label → Bool
  | .rdStep p _ _ =>
    match (d.readers p).pc with
    | .requeue _ => true
    | _ => false
  | .wtStep p _ _ =>
    match (d.writers p).pc with
    | .commit _ => !d.dmaEnable
    | _ => false
  | _ => false

/-- A write takes the head of `wt_free`, puts a buffer back there or finds the list empty,
or the lists are built again. -/
def usesFreeHead (d : Dev) : Label → Bool
  | .wtStep p _ _ =>
    match (d.writers p).pc with
    | .tryWrite | .requeue _ => true
    | .relock => d.dmaEnable
    | .prepared _ => d.wt.free = []
    | _ => false
  | .ctlStep p _ =>
    match d.ctls p with
    | .startInit _ | .ctrlInit => true
    | _ => false
  | _ => false

/-- The caller's calls are not seen: none leaves a trace of its own, and while one of its
writes holds a buffer nobody else uses the head of `wt_free`. -/
def unseen (c : Caller) (d : Dev) (l : Label) : Bool :=
  if l.caller = some c then !leavesTrace d l else c.held d = [] || !usesFreeHead d l

/-- Two records of calls that cannot be told apart: those of idle callers hold leftovers. -/
def SameRd (r r' : RdProc) : Prop := r' = r ∨ r.pc = .idle ∧ r'.pc = .idle

def SameWt (w w' : WtProc) : Prop := w' = w ∨ w.pc = .idle ∧ w'.pc = .idle

/-- Two devices that differ in the results noted of earlier calls only. -/
structure Dev.Same (d e : Dev) : Prop where
  rd : e.rd = d.rd
  wt : e.wt = d.wt
  stat : e.stat = d.stat
  dmaEnable : e.dmaEnable = d.dmaEnable
  rwCnt : e.rwCnt = d.rwCnt
  poolLive : e.poolLive = d.poolLive
  isrs : e.isrs = d.isrs
  ctls : e.ctls = d.ctls
  readers : ∀ p, SameRd (d.readers p) (e.readers p)
  writers : ∀ p, SameWt (d.writers p) (e.writers p)
  completed : e.hist.completed = d.hist.completed
  takes : e.hist.takes = d.hist.takes
  committed : e.hist.committed = d.hist.committed

namespace Driver

/-- The same module, up to what is left of earlier calls of device `i`. The block
position of the readers is `flgrd`. -/
structure Same (i : Nat) (s t : Driver) : Prop where
  bounce : t.bounce = s.bounce
  dev : (s.dev i).Same (t.dev i)
  others : ∀ j, j ≠ i → t.dev j = s.dev j

def count (s : Driver) (i : Nat) (n : Int) : Driver :=
  { s with dev := Function.update s.dev i { s.dev i with rwCnt := (s.dev i).rwCnt + n } }

/-- A run and, beside it, the run without the calls of `c` on device `i`. -/
def stepWithout (geo : Nat → Geometry) (i : Nat) (c : Caller) (x : Driver × Driver)
    (l : Nat × Label) : Option (Driver × Driver) :=
  (Driver.step geo x.1 l).bind fun t =>
    if l.1 = i ∧ l.2.caller = some c then
      some (t, x.2.count i ((t.dev i).rwCnt - (x.1.dev i).rwCnt))
    else (Driver.step geo x.2 l).map fun e => (t, e)

end Driver

/-! ## The critical sections -/

namespace Dev

/-- The device with other calls in it and with `front` at the head of `wt_free`. -/
def patch (d : Dev) (readers : Pid → RdProc) (writers : Pid → WtProc) (front : List Buf)
    (results : List RdResult) : Dev :=
  { d with
    readers := readers
    writers := writers
    wt := { d.wt with free := front ++ d.wt.free }
    stat := { d.stat with wtFree := d.stat.wtFree + front.length }
    hist := { d.hist with results := results } }

variable {g : Geometry} {r : Pid → RdProc} {w : Pid → WtProc} {front : List Buf}
  {rs : List RdResult}

section
variable (d : Dev) (r : Pid → RdProc) (w : Pid → WtProc) (front : List Buf) (rs : List RdResult)

@[simp] theorem patch_rd : (d.patch r w front rs).rd = d.rd := rfl
@[simp] theorem patch_wt_submit : (d.patch r w front rs).wt.submit = d.wt.submit := rfl
@[simp] theorem patch_wt_submitCnt : (d.patch r w front rs).wt.submitCnt = d.wt.submitCnt := rfl
@[simp] theorem patch_dmaEnable : (d.patch r w front rs).dmaEnable = d.dmaEnable := rfl
@[simp] theorem patch_rwCnt : (d.patch r w front rs).rwCnt = d.rwCnt := rfl
@[simp] theorem patch_readers : (d.patch r w front rs).readers = r := rfl
@[simp] theorem patch_writers : (d.patch r w front rs).writers = w := rfl
@[simp] theorem patch_isrs : (d.patch r w front rs).isrs = d.isrs := rfl
@[simp] theorem patch_ctls : (d.patch r w front rs).ctls = d.ctls := rfl

end

theorem patch_self (d : Dev) : d.patch d.readers d.writers [] d.hist.results = d := by
  simp [patch]

theorem submitReadLoop_patch (free : List Buf) (d : Dev) :
    submitReadLoop g free (d.patch r w front rs) = (submitReadLoop g free d).patch r w front rs := by
  induction free generalizing d with
  | nil => rfl
  | cons b free ih =>
    by_cases hlt : d.rd.submitCnt < rdFifoDepth
    · rw [submitReadLoop, patch_rd, if_pos hlt, submitReadLoop, if_pos hlt, ← ih]
      rfl
    · rw [submitReadLoop, patch_rd, if_neg hlt, submitReadLoop, if_neg hlt]

theorem tryToSubmitReadNolock_patch (d : Dev) :
    tryToSubmitReadNolock g (d.patch r w front rs) =
      (tryToSubmitReadNolock g d).patch r w front rs := by
  by_cases hon : d.dmaEnable = true
  · rw [tryToSubmitReadNolock, patch_dmaEnable, if_pos hon, tryToSubmitReadNolock, if_pos hon]
    exact submitReadLoop_patch _ _
  · rw [tryToSubmitReadNolock, patch_dmaEnable, if_neg hon, tryToSubmitReadNolock, if_neg hon]

theorem submitWriteLoop_patch (pending : List Buf) (d : Dev) :
    submitWriteLoop g pending (d.patch r w front rs) =
      (submitWriteLoop g pending d).patch r w front rs := by
  induction pending generalizing d with
  | nil => rfl
  | cons b pending ih =>
    by_cases hlt : d.wt.submitCnt < wtFifoDepth
    · rw [submitWriteLoop, patch_wt_submitCnt, if_pos hlt, submitWriteLoop, if_pos hlt, ← ih]
      rfl
    · rw [submitWriteLoop, patch_wt_submitCnt, if_neg hlt, submitWriteLoop, if_neg hlt]

theorem tryToSubmitWriteNolock_patch (d : Dev) :
    tryToSubmitWriteNolock g (d.patch r w front rs) =
      (tryToSubmitWriteNolock g d).patch r w front rs := by
  by_cases hon : d.dmaEnable = true
  · rw [tryToSubmitWriteNolock, patch_dmaEnable, if_pos hon, tryToSubmitWriteNolock, if_pos hon]
    exact submitWriteLoop_patch _ _
  · rw [tryToSubmitWriteNolock, patch_dmaEnable, if_neg hon, tryToSubmitWriteNolock, if_neg hon]

theorem completeReads_patch (blks : List Bytes) (d : Dev) :
    completeReads blks (d.patch r w front rs) =
      (completeReads blks d).map fun d => d.patch r w front rs := by
  induction blks generalizing d with
  | nil => rfl
  | cons blk blks ih =>
    cases hsubmit : d.rd.submit with
    | nil => simp [completeReads, hsubmit]
    | cons b rest =>
      simp only [completeReads, patch_rd, hsubmit]
      rw [← ih]
      rfl

theorem completeWrites_patch (n : Nat) (d : Dev) :
    completeWrites n (d.patch r w front rs) =
      (completeWrites n d).map fun d => d.patch r w front rs := by
  induction n generalizing d with
  | zero => rfl
  | succ n ih =>
    cases hsubmit : d.wt.submit with
    | nil => simp [completeWrites, hsubmit]
    | cons b rest =>
      simp only [completeWrites, patch_wt_submit, hsubmit]
      rw [← ih]
      simp [patch, Stat.wtSubmitDec, Stat.wtFreeInc, Int.add_right_comm]

theorem notifyReads_patch (blks : List Bytes) (d : Dev) :
    notifyReads g blks (d.patch r w front rs) =
      (notifyReads g blks d).map fun d => d.patch r w front rs := by
  unfold notifyReads
  split
  · rfl
  · rw [completeReads_patch, Option.map_map, Option.map_map]
    refine congrArg (Option.map · _) (funext fun e => ?_)
    simp only [Function.comp_apply]
    rw [← tryToSubmitReadNolock_patch]
    rfl

theorem notifyWrites_patch (n : Nat) (d : Dev) :
    notifyWrites g n (d.patch r w front rs) =
      (notifyWrites g n d).map fun d => d.patch r w front rs := by
  unfold notifyWrites
  split
  · rfl
  · rw [completeWrites_patch, Option.map_map, Option.map_map]
    refine congrArg (Option.map · _) (funext fun e => ?_)
    simp only [Function.comp_apply]
    rw [← tryToSubmitWriteNolock_patch]
    rfl

theorem notify_patch (blks : List Bytes) (n : Nat) (d : Dev) :
    (notifyReads g blks (d.patch r w front rs)).bind (notifyWrites g n) =
      ((notifyReads g blks d).bind (notifyWrites g n)).map fun d => d.patch r w front rs := by
  rw [notifyReads_patch]
  cases notifyReads g blks d with
  | none => rfl
  | some e => exact notifyWrites_patch n e

theorem listInit_patch (d : Dev) :
    listInit g (d.patch r w [] rs) = (listInit g d).patch r w [] rs := by
  rw [listInit_eq, listInit_eq]
  simp [patch]

theorem notify_calls {blks : List Bytes} {n : Nat} {d d' : Dev}
    (h : (notifyReads g blks d).bind (notifyWrites g n) = some d') :
    d'.readers = d.readers ∧ d'.writers = d.writers ∧ d'.hist.results = d.hist.results := by
  have hself : (notifyReads g blks (d.patch d.readers d.writers [] d.hist.results)).bind _ = _ :=
    notify_patch blks n d
  rw [patch_self, h, Option.map_some, Option.some.injEq] at hself
  rw [hself]
  exact ⟨rfl, rfl, rfl⟩

/-! ## The steps of the other calls -/

variable {d : Dev} {p : Pid}

structure SameMove (p : Pid) (w : Pid → WtProc) (front : List Buf) (x y : Bounce × Dev) : Prop where
  bounce : y.1 = x.1
  readers : y.2.readers p = x.2.readers p
  rest : y.2 = x.2.patch y.2.readers w front y.2.hist.results

theorem SameMove.setRd {bn : Bounce} {e : Dev} {pc : RdPc} (hr : r p = e.readers p) :
    SameMove p w front (bn, e.setRd p pc) (bn, (e.patch r w front rs).setRd p pc) :=
  ⟨rfl, by simp [Dev.setRd, patch, hr], rfl⟩

theorem tryRead_patch {bn : Bounce} (hr : r p = d.readers p) :
    SameMove p w front (bn, d.tryRead p) (bn, (d.patch r w front rs).tryRead p) := by
  unfold tryRead
  rw [patch_readers, patch_rd, hr]
  cases hpending : d.rd.pending with
  | nil => exact .setRd hr
  | cons b rest => exact ⟨rfl, by simp [Dev.setRd, patch, hr], rfl⟩

theorem rdStep_patch {bn : Bounce} (hr : r p = d.readers p) (copyOk sig : Bool) :
    SameMove p w front (d.rdStep g bn p copyOk sig)
      ((d.patch r w front rs).rdStep g bn p copyOk sig) := by
  unfold rdStep
  rw [patch_readers, hr]
  cases hpc : (d.readers p).pc <;> dsimp only
  case idle => exact ⟨rfl, hr, rfl⟩
  case tryRead => exact tryRead_patch hr
  case relock =>
    rw [patch_dmaEnable]
    split
    · exact tryRead_patch hr
    · exact .setRd hr
  case submit =>
    rw [tryToSubmitReadNolock_patch]
    obtain ⟨n, st, _, _, _, heq⟩ := tryToSubmitReadNolock_eq g d
    refine .setRd ?_
    rw [heq]
    exact hr
  case bounceCopy | copyUser =>
    split
    · exact ⟨rfl, by simp [Dev.setRd, gotBytes, deliveredBounce, delivered, patch, hr], rfl⟩
    · exact .setRd hr
  case asleep =>
    split
    · exact .setRd hr
    · split
      · exact .setRd hr
      · exact ⟨rfl, hr, rfl⟩
  case enter | bounceBump | exit | requeue | release =>
    exact ⟨rfl, by simp [Dev.setRd, returnRead, requeueRead, releaseRead, patch, hr], rfl⟩
  all_goals exact .setRd hr

structure SameWtMove (p : Pid) (r : Pid → RdProc) (front : List Buf) (x y : Dev) : Prop where
  writers : y.writers p = x.writers p
  rest : y = x.patch r y.writers front y.hist.results

theorem SameWtMove.setWt {e : Dev} {pc : WtPc} (hw : w p = e.writers p) :
    SameWtMove p r front (e.setWt p pc) ((e.patch r w front rs).setWt p pc) :=
  ⟨by simp [Dev.setWt, patch, hw], rfl⟩

theorem tryWrite_patch (hw : w p = d.writers p) :
    SameWtMove p r [] (d.tryWrite p) ((d.patch r w [] rs).tryWrite p) := by
  unfold tryWrite
  rw [patch_writers, hw]
  cases hfree : d.wt.free with
  | nil =>
    have hpatch : (d.patch r w [] rs).wt.free = [] := hfree
    rw [hpatch]
    exact .setWt hw
  | cons b rest =>
    have hpatch : (d.patch r w [] rs).wt.free = b :: rest := hfree
    rw [hpatch]
    exact ⟨by simp [Dev.setWt, patch, hw], by simp [Dev.setWt, patch, Stat.wtFreeDec]⟩

theorem commitWrite_patch {b : Buf} (hw : w p = d.writers p) :
    SameWtMove p r front (d.commitWrite g p b) ((d.patch r w front rs).commitWrite g p b) := by
  unfold commitWrite
  rw [patch_writers, patch_dmaEnable, patch_wt_submitCnt, hw]
  split
  · exact .setWt hw
  · split <;> exact ⟨by simp [Dev.setWt, patch, hw], rfl⟩

theorem wtStep_patch (hw : w p = d.writers p) (copied : Option Bytes) (sig : Bool)
    (hfree : usesFreeHead d (.wtStep p copied sig) = true → front = []) :
    SameWtMove p r front (d.wtStep g p copied sig)
      ((d.patch r w front rs).wtStep g p copied sig) := by
  unfold usesFreeHead at hfree
  unfold wtStep
  rw [patch_writers, hw]
  cases hpc : (d.writers p).pc <;> simp only [hpc] at hfree <;> dsimp only
  case idle => exact ⟨hw, rfl⟩
  case tryWrite =>
    obtain rfl := hfree trivial
    exact tryWrite_patch hw
  case relock =>
    rw [patch_dmaEnable]
    split
    · rename_i hon
      obtain rfl := hfree hon
      exact tryWrite_patch hw
    · exact .setWt hw
  case prepared =>
    have hpatch : ((d.patch r w front rs).wt.free = []) = (d.wt.free = []) := by
      simp only [patch, List.append_eq_nil_iff, and_iff_right_iff_imp, eq_iff_iff]
      exact fun hempty => hfree (by simpa using hempty)
    simp only [hpatch]
    exact .setWt hw
  case commit b => exact commitWrite_patch hw
  case requeue b =>
    obtain rfl := hfree trivial
    exact ⟨by simp [Dev.setWt, requeueWrite, patch, hw],
      by simp [Dev.setWt, requeueWrite, patch, Stat.wtFreeInc]⟩
  case copyUser =>
    split
    · exact ⟨by simp [Dev.setWt, patch, hw], rfl⟩
    · exact .setWt hw
  case asleep =>
    split
    · exact .setWt hw
    · split
      · exact .setWt hw
      · exact ⟨hw, rfl⟩
  case enter | exit => exact ⟨by simp [Dev.setWt, patch, hw], rfl⟩
  all_goals exact .setWt hw

structure Waits (f h : Wait → Wait) (d d' : Dev) : Prop where
  readers : ∀ q, d'.readers q = { d.readers q with pc := (d.readers q).pc.mapWait f }
  writers : ∀ q, d'.writers q = { d.writers q with pc := (d.writers q).pc.mapWait h }

theorem Waits.of_eq {d' : Dev} (hr : d'.readers = d.readers) (hw : d'.writers = d.writers) :
    Waits id id d d' := by
  constructor
  · intro q
    rw [hr, RdPc.mapWait_id]
  · intro q
    rw [hw, WtPc.mapWait_id]

theorem Waits.wakeRd {d' : Dev} (hr : d'.readers = d.wakeRdque.readers)
    (hw : d'.writers = d.writers) : Waits Wait.wake id d d' := by
  constructor
  · intro q
    rw [hr]
    rfl
  · intro q
    rw [hw, WtPc.mapWait_id]

theorem Waits.wakeWt {d' : Dev} (hr : d'.readers = d.readers)
    (hw : d'.writers = d.wakeWtque.writers) : Waits id Wait.wake d d' := by
  constructor
  · intro q
    rw [hr, RdPc.mapWait_id]
  · intro q
    rw [hw]
    rfl

/-- A step outside the calls, on a device and on the same device with other calls in it. -/
structure Outside (r : Pid → RdProc) (w : Pid → WtProc) (front : List Buf) (rs : List RdResult)
    (d d' e' : Dev) : Prop where
  waits : ∃ f h, Waits f h d d' ∧ Waits f h (d.patch r w front rs) e'
  rest : e' = d'.patch e'.readers e'.writers front e'.hist.results

theorem Outside.of_eq {d' : Dev} (hr : d'.readers = d.readers) (hw : d'.writers = d.writers) :
    Outside r w front rs d d' (d'.patch r w front rs) :=
  ⟨⟨id, id, .of_eq hr hw, .of_eq rfl rfl⟩, rfl⟩

theorem isrStep_patch (r : Pid → RdProc) (w : Pid → WtProc) (front : List Buf)
    (rs : List RdResult) {d' : Dev} {blks : List Bytes} {n : Nat} (hstep : d.isrStep g p blks n = some d') :
    ∃ e', (d.patch r w front rs).isrStep g p blks n = some e' ∧ Outside r w front rs d d' e' := by
  unfold isrStep at hstep ⊢
  rw [patch_isrs, patch_dmaEnable]
  cases hpc : d.isrs p <;> simp only [hpc, Option.some.injEq] at hstep ⊢
  case idle =>
    subst hstep
    exact ⟨_, rfl, .of_eq rfl rfl⟩
  case wakeRd wtToo =>
    subst hstep
    exact ⟨_, rfl, ⟨_, _, .wakeRd rfl rfl, .wakeRd rfl rfl⟩, rfl⟩
  case wakeWt =>
    subst hstep
    exact ⟨_, rfl, ⟨_, _, .wakeWt rfl rfl, .wakeWt rfl rfl⟩, rfl⟩
  case notify =>
    by_cases hoff : d.dmaEnable = false
    · rw [if_pos hoff, Option.some.injEq] at hstep
      subst hstep
      rw [if_pos hoff]
      exact ⟨_, rfl, .of_eq rfl rfl⟩
    · rw [if_neg hoff] at hstep
      rw [if_neg hoff]
      obtain ⟨hhonest, hreport⟩ := Option.ite_none_right_eq_some.mp hstep
      obtain ⟨m, hm, rfl⟩ := Option.map_eq_some_iff.mp hreport
      obtain ⟨hr, hw, _⟩ := notify_calls hm
      have hsame : Honest g blks n (d.patch r w front rs) := hhonest
      refine ⟨(m.setIsr p _).patch r w front rs, ?_, .of_eq hr hw⟩
      rw [if_pos hsame, notify_patch, hm]
      rfl

theorem ctlStep_patch {resetOk : Bool}
    (hfree : usesFreeHead d (.ctlStep p resetOk) = true → front = []) :
    Outside r w front rs d (d.ctlStep g p resetOk)
      ((d.patch r w front rs).ctlStep g p resetOk) := by
  unfold usesFreeHead at hfree
  unfold ctlStep
  rw [patch_ctls]
  cases hpc : d.ctls p <;> simp only [hpc] at hfree <;> dsimp only
  case stopWakeRd => exact ⟨⟨_, _, .wakeRd rfl rfl, .wakeRd rfl rfl⟩, rfl⟩
  case stopWakeWt => exact ⟨⟨_, _, .wakeWt rfl rfl, .wakeWt rfl rfl⟩, rfl⟩
  case stopCheck =>
    rw [patch_rwCnt]
    split <;> exact .of_eq rfl rfl
  case startInit =>
    obtain rfl := hfree trivial
    rw [listInit_patch]
    refine .of_eq ?_ ?_ <;> simp [listInit_eq, setCtl]
  case ctrlInit =>
    obtain rfl := hfree trivial
    unfold Dev.ctrlInit
    rw [listInit_eq, listInit_eq]
    refine ⟨⟨Wait.forget, Wait.forget, ⟨fun _ => rfl, fun _ => rfl⟩, ⟨fun _ => rfl, fun _ => rfl⟩⟩, ?_⟩
    simp [patch, setCtl]
  case startSubmit =>
    rw [tryToSubmitReadNolock_patch]
    obtain ⟨n, st, _, _, _, heq⟩ := tryToSubmitReadNolock_eq g d
    rw [heq]
    exact .of_eq rfl rfl
  all_goals exact .of_eq rfl rfl

/-- `e` is `d` without the calls of `off`, one of which holds `front`. -/
structure Alike (off : Caller → Prop) (front : List Buf) (d e : Dev) : Prop where
  readers : ∀ q, ¬ off (.reader q) → SameRd (d.readers q) (e.readers q)
  writers : ∀ q, ¬ off (.writer q) → SameWt (d.writers q) (e.writers q)
  rest : e = d.patch e.readers e.writers front e.hist.results

end Dev

theorem SameRd.mapWait {r r' : RdProc} (h : SameRd r r') (f : Wait → Wait) :
    SameRd { r with pc := r.pc.mapWait f } { r' with pc := r'.pc.mapWait f } := by
  rcases h with rfl | ⟨hr, hr'⟩
  · exact .inl rfl
  · exact .inr ⟨by rw [hr]; rfl, by rw [hr']; rfl⟩

theorem SameWt.mapWait {w w' : WtProc} (h : SameWt w w') (f : Wait → Wait) :
    SameWt { w with pc := w.pc.mapWait f } { w' with pc := w'.pc.mapWait f } := by
  rcases h with rfl | ⟨hw, hw'⟩
  · exact .inl rfl
  · exact .inr ⟨by rw [hw]; rfl, by rw [hw']; rfl⟩

namespace Dev.Alike
variable {g : Geometry} {off : Caller → Prop} {front : List Buf} {bn : Bounce} {d d' e : Dev}
  {p : Pid}

theorem rdStep (h : Alike off front d e) (g : Geometry) (bn : Bounce) (hp : ¬ off (.reader p))
    (copyOk sig : Bool) :
    (e.rdStep g bn p copyOk sig).1 = (d.rdStep g bn p copyOk sig).1 ∧
      Alike off front (d.rdStep g bn p copyOk sig).2 (e.rdStep g bn p copyOk sig).2 := by
  rcases h.readers p hp with hself | ⟨hd, he⟩
  · have hmove : SameMove p e.writers front (d.rdStep g bn p copyOk sig)
        ((d.patch e.readers e.writers front e.hist.results).rdStep g bn p copyOk sig) :=
      rdStep_patch hself copyOk sig
    rw [← h.rest] at hmove
    obtain ⟨_, _, _, _, _, _, hframe⟩ := rdStep_frame g bn d p copyOk sig
    obtain ⟨_, _, _, _, _, _, hframe'⟩ := rdStep_frame g bn e p copyOk sig
    have hw : (d.rdStep g bn p copyOk sig).2.writers = d.writers := by rw [hframe]
    have hw' : (e.rdStep g bn p copyOk sig).2.writers = e.writers := by rw [hframe']
    refine ⟨hmove.bounce, fun q hq => ?_, fun q hq => ?_, ?_⟩
    · by_cases hqp : q = p
      · subst q
        exact .inl hmove.readers
      · rw [(rdStep_stepped g bn d p copyOk sig).others q hqp,
          (rdStep_stepped g bn e p copyOk sig).others q hqp]
        exact h.readers q hq
    · rw [hw, hw']
      exact h.writers q hq
    · rw [hw']
      exact hmove.rest
  · have hsame : ∀ {x : Dev}, (x.readers p).pc = .idle → x.rdStep g bn p copyOk sig = (bn, x) := by
      intro x hx
      simp [Dev.rdStep, hx]
    rw [hsame hd, hsame he]
    exact ⟨rfl, h⟩

theorem wtStep (h : Alike off front d e) (hp : ¬ off (.writer p)) (copied : Option Bytes)
    (sig : Bool) (hfree : usesFreeHead d (.wtStep p copied sig) = true → front = []) :
    Alike off front (d.wtStep g p copied sig) (e.wtStep g p copied sig) := by
  rcases h.writers p hp with hself | ⟨hd, he⟩
  · have hmove : SameWtMove p e.readers front (d.wtStep g p copied sig)
        ((d.patch e.readers e.writers front e.hist.results).wtStep g p copied sig) :=
      wtStep_patch hself copied sig hfree
    rw [← h.rest] at hmove
    obtain ⟨_, _, _, _, _, hframe⟩ := wtStep_frame g d p copied sig
    obtain ⟨_, _, _, _, _, hframe'⟩ := wtStep_frame g e p copied sig
    have hr : (d.wtStep g p copied sig).readers = d.readers := by rw [hframe]
    have hr' : (e.wtStep g p copied sig).readers = e.readers := by rw [hframe']
    refine ⟨fun q hq => ?_, fun q hq => ?_, ?_⟩
    · rw [hr, hr']
      exact h.readers q hq
    · by_cases hqp : q = p
      · subst q
        exact .inl hmove.writers
      · rw [(wtStep_stepped g d p copied sig).others q hqp,
          (wtStep_stepped g e p copied sig).others q hqp]
        exact h.writers q hq
    · rw [hr']
      exact hmove.rest
  · have hsame : ∀ {x : Dev}, (x.writers p).pc = .idle → x.wtStep g p copied sig = x := by
      intro x hx
      simp [Dev.wtStep, hx]
    rw [hsame hd, hsame he]
    exact h

theorem outside {e' : Dev} (h : Alike off front d e)
    (hout : Outside e.readers e.writers front e.hist.results d d' e') : Alike off front d' e' := by
  obtain ⟨f, k, hd, he⟩ := hout.waits
  rw [← h.rest] at he
  refine ⟨fun q hq => ?_, fun q hq => ?_, hout.rest⟩
  · rw [hd.readers, he.readers]
    exact (h.readers q hq).mapWait f
  · rw [hd.writers, he.writers]
    exact (h.writers q hq).mapWait k

theorem rdCall (h : Alike off front d e) (r : RdProc) :
    Alike off front { d with readers := Function.update d.readers p r }
      { e with readers := Function.update e.readers p r } := by
  refine ⟨fun q hq => ?_, h.writers, ?_⟩
  · by_cases hqp : q = p
    · subst q
      exact .inl (by simp)
    · simp only [Function.update_of_ne hqp]
      exact h.readers q hq
  · rw [h.rest]
    rfl

theorem wtCall (h : Alike off front d e) (w : WtProc) :
    Alike off front { d with writers := Function.update d.writers p w }
      { e with writers := Function.update e.writers p w } := by
  refine ⟨h.readers, fun q hq => ?_, ?_⟩
  · by_cases hqp : q = p
    · subst q
      exact .inl (by simp)
    · simp only [Function.update_of_ne hqp]
      exact h.writers q hq
  · rw [h.rest]
    rfl

theorem rd_idle (h : Alike off front d e) (hp : ¬ off (.reader p)) (hidle : (d.readers p).pc = .idle) :
    (e.readers p).pc = .idle := by
  rcases h.readers p hp with hself | ⟨_, he⟩
  · rw [hself]
    exact hidle
  · exact he

theorem wt_idle (h : Alike off front d e) (hp : ¬ off (.writer p)) (hidle : (d.writers p).pc = .idle) :
    (e.writers p).pc = .idle := by
  rcases h.writers p hp with hself | ⟨_, he⟩
  · rw [hself]
    exact hidle
  · exact he

/-- A step that is none of the absent callers' does the same on both devices. -/
theorem step {bn' : Bounce} {l : Label} (h : Alike off front d e)
    (hl : ∀ c, l.caller = some c → ¬ off c) (hfree : usesFreeHead d l = true → front = [])
    (hstep : Pdma.step g bn d l = some (bn', d')) :
    ∃ e', Pdma.step g bn e l = some (bn', e') ∧ Alike off front d' e' := by
  cases step_cases hstep with
  | rdCall p count nonblock idle =>
    exact ⟨_, if_pos (h.rd_idle (hl _ rfl) idle), h.rdCall _⟩
  | rdStep p copyOk sig =>
    obtain ⟨hbounce, halike⟩ := h.rdStep g bn (hl _ rfl) copyOk sig
    refine ⟨(e.rdStep g bn p copyOk sig).2, ?_, halike⟩
    rw [← hbounce]
    rfl
  | wtCall p count nonblock idle =>
    exact ⟨_, if_pos (h.wt_idle (hl _ rfl) idle), h.wtCall _⟩
  | wtStep p copied sig => exact ⟨_, rfl, h.wtStep (hl _ rfl) copied sig hfree⟩
  | isrCall p idle =>
    have hisrs : e.isrs p = d.isrs p := by rw [h.rest]; rfl
    refine ⟨_, if_pos (hisrs.trans idle), h.readers, h.writers, ?_⟩
    rw [h.rest]
    rfl
  | isrStep p blks n _ runs =>
    obtain ⟨e', he', hout⟩ := isrStep_patch e.readers e.writers front e.hist.results runs
    rw [← h.rest] at he'
    refine ⟨e', ?_, h.outside hout⟩
    simp only [Pdma.step, he', Option.map_some]
  | ctlCall p op idle =>
    have hctls : e.ctls p = d.ctls p := by rw [h.rest]; rfl
    refine ⟨_, if_pos (hctls.trans idle), h.readers, h.writers, ?_⟩
    rw [h.rest]
    rfl
  | ctlStep p resetOk =>
    refine ⟨_, rfl, h.outside ?_⟩
    have hout : Outside e.readers e.writers front e.hist.results d (d.ctlStep g p resetOk)
        ((d.patch e.readers e.writers front e.hist.results).ctlStep g p resetOk) :=
      ctlStep_patch hfree
    rwa [← h.rest] at hout

end Dev.Alike

/-! ## The steps of the absent caller -/

/-- A read that is to return its size, or that is to put its block back. -/
def RdPc.served : RdPc → Bool
  | bounceCopy | bounceClear | bounceBump | submit => true
  | copyBounce _ | bump _ | copyUser _ | requeue _ | release _ => true
  | exit ret => 0 ≤ ret
  | _ => false

def WtPc.served : WtPc → Bool
  | commit _ => true
  | exit ret => 0 ≤ ret
  | _ => false

theorem RdPc.served_mapWait (f : Wait → Wait) (pc : RdPc) : (pc.mapWait f).served = pc.served := by
  cases pc <;> rfl

theorem WtPc.served_mapWait (f : Wait → Wait) (pc : WtPc) : (pc.mapWait f).served = pc.served := by
  cases pc <;> rfl

open Dev

namespace Caller

def served (d : Dev) : Caller → Bool
  | reader p => (d.readers p).pc.served
  | writer p => (d.writers p).pc.served

/-- Nothing of what the caller did shows but its part in `rw_cnt`. -/
def Absent (c : Caller) (d d' : Dev) : Prop :=
  ∀ r w rs, d'.patch r w (c.held d') rs =
    { d.patch r w (c.held d) rs with rwCnt := d'.rwCnt }

variable {g : Geometry} {bn : Bounce} {d : Dev} {p : Pid}

theorem Absent.setRd {n : Int} {pc : RdPc} {results : List RdResult} :
    (reader p).Absent d
      ({ d with rwCnt := n, hist := { d.hist with results := results } }.setRd p pc) :=
  fun _ _ _ => rfl

theorem Absent.setWt {n : Int} {pc : WtPc} (hheld : pc.held = d.wtHeld p) :
    (writer p).Absent d ({ d with rwCnt := n }.setWt p pc) := by
  intro r w rs
  have hsame : (writer p).held ({ d with rwCnt := n }.setWt p pc) = (writer p).held d := by
    simp [held, Dev.wtHeld, Dev.setWt, hheld]
  rw [hsame]
  rfl

theorem tryRead_absent (hserved : (reader p).served (d.tryRead p) = false) :
    (reader p).Absent d (d.tryRead p) := by
  unfold Dev.tryRead at hserved ⊢
  cases hpending : d.rd.pending with
  | nil => exact .setRd
  | cons b rest =>
    rw [hpending] at hserved
    simp [served, Dev.setRd_readers_self, RdPc.served] at hserved

theorem rdStep_absent {copyOk sig : Bool} (hold : (reader p).served d = false)
    (hnew : (reader p).served (d.rdStep g bn p copyOk sig).2 = false) :
    (d.rdStep g bn p copyOk sig).1 = bn ∧
      (reader p).Absent d (d.rdStep g bn p copyOk sig).2 := by
  have hset : ∀ {n : Int} {pc : RdPc} {results : List RdResult}, (reader p).Absent d
      ({ d with rwCnt := n, hist := { d.hist with results := results } }.setRd p pc) := .setRd
  have hpc' : (d.readers p).pc.served = false := hold
  unfold Dev.rdStep at hnew ⊢
  cases hpc : (d.readers p).pc <;> rw [hpc] at hpc' <;> simp only [hpc] at hnew ⊢
  case tryRead => exact ⟨trivial, tryRead_absent hnew⟩
  case relock =>
    refine ⟨trivial, ?_⟩
    split at hnew
    · rename_i hon
      rw [if_pos hon]
      exact tryRead_absent hnew
    · rename_i hoff
      rw [if_neg hoff]
      exact hset
  case asleep =>
    refine ⟨trivial, ?_⟩
    split
    · exact hset
    · split
      · exact hset
      · exact fun _ _ _ => rfl
  case bounceCopy | bounceClear | bounceBump | submit | copyBounce | bump | copyUser | requeue |
      release => cases hpc'
  case idle => exact ⟨trivial, fun _ _ _ => rfl⟩
  all_goals exact ⟨trivial, hset⟩

theorem tryWrite_absent (hheld : d.wtHeld p = none) : (writer p).Absent d (d.tryWrite p) := by
  unfold Dev.tryWrite
  cases hfree : d.wt.free with
  | nil =>
    refine .setWt ?_
    rw [hheld]
    split <;> rfl
  | cons b rest =>
    intro r w rs
    have hnone : (writer p).held d = [] := by simp [held, hheld]
    rw [hnone]
    simp [held, Dev.wtHeld, Dev.setWt, Dev.patch, WtPc.held, Stat.wtFreeDec, hfree]

theorem requeueWrite_absent {b : Buf} (hheld : d.wtHeld p = some b) :
    (writer p).Absent d (d.requeueWrite p b) := by
  intro r w rs
  have hsome : (writer p).held d = [b] := by simp [held, hheld]
  rw [hsome]
  simp [held, Dev.requeueWrite, Dev.wtHeld, Dev.setWt, Dev.patch, WtPc.held, Stat.wtFreeInc]

theorem wtStep_absent {copied : Option Bytes} {sig : Bool} (hold : (writer p).served d = false)
    (hnew : (writer p).served (d.wtStep g p copied sig) = false) :
    (writer p).Absent d (d.wtStep g p copied sig) := by
  have hset : ∀ {n : Int} {pc : WtPc}, pc.held = d.wtHeld p → (writer p).Absent d
      ({ d with rwCnt := n }.setWt p pc) := .setWt
  have hpc' : (d.writers p).pc.served = false := hold
  have hheld : d.wtHeld p = (d.writers p).pc.held := rfl
  unfold Dev.wtStep at hnew ⊢
  cases hpc : (d.writers p).pc <;> rw [hpc] at hpc' hheld <;> simp only [hpc] at hnew ⊢
  case idle => exact fun _ _ _ => rfl
  case tryWrite => exact tryWrite_absent hheld
  case requeue b => exact requeueWrite_absent hheld
  case commit => cases hpc'
  case relock =>
    split
    · exact tryWrite_absent hheld
    · exact hset hheld.symm
  case copyUser b =>
    cases copied with
    | some data => simp [served, Dev.setWt_writers_self, WtPc.served] at hnew
    | none => exact hset hheld.symm
  case asleep =>
    split
    · exact hset hheld.symm
    · split
      · exact hset hheld.symm
      · exact fun _ _ _ => rfl
  case checkEnable | checkSize | prepared | finish =>
    refine hset ?_
    rw [hheld]
    split <;> rfl
  all_goals exact hset hheld.symm

variable {bn' : Bounce} {d' e : Dev} {l : Label} {c : Caller}

/-- A step of `c` that shows in `rw_cnt` only. -/
structure Own (c : Caller) (bn bn' : Bounce) (d d' : Dev) : Prop where
  bounce : bn' = bn
  absent : c.Absent d d'
  readers : ∀ q, ¬ reader q = c → d'.readers q = d.readers q
  writers : ∀ q, ¬ writer q = c → d'.writers q = d.writers q

theorem own_step (hl : l.caller = some c) (hold : c.served d = false) (hnew : c.served d' = false)
    (hstep : step g bn d l = some (bn', d')) : Own c bn bn' d d' := by
  cases step_cases hstep with
  | rdCall p count nonblock idle =>
    cases hl
    refine ⟨rfl, fun _ _ _ => rfl, fun q hq => ?_, fun _ _ => rfl⟩
    exact Function.update_of_ne (fun h => hq (congrArg _ h)) ..
  | rdStep p copyOk sig =>
    cases hl
    obtain ⟨hbounce, habsent⟩ := rdStep_absent hold hnew
    obtain ⟨_, _, _, _, _, _, hframe⟩ := rdStep_frame g bn d p copyOk sig
    refine ⟨hbounce, habsent, fun q hq => ?_, fun _ _ => by rw [hframe]⟩
    exact (Dev.rdStep_stepped g bn d p copyOk sig).others q fun h => hq (congrArg _ h)
  | wtCall p count nonblock idle =>
    cases hl
    refine ⟨rfl, fun r w rs => ?_, fun _ _ => rfl, fun q hq => ?_⟩
    · have hold : (writer p).held d = [] := by simp [held, Dev.wtHeld, idle, WtPc.held]
      rw [hold]
      simp [held, Dev.wtHeld, WtPc.held, Dev.patch]
    · exact Function.update_of_ne (fun h => hq (congrArg _ h)) ..
  | wtStep p copied sig =>
    cases hl
    obtain ⟨_, _, _, _, _, hframe⟩ := wtStep_frame g d p copied sig
    refine ⟨rfl, wtStep_absent hold hnew, fun _ _ => by rw [hframe], fun q hq => ?_⟩
    exact (Dev.wtStep_stepped g d p copied sig).others q fun h => hq (congrArg _ h)
  | isrCall | isrStep | ctlCall | ctlStep => cases hl

theorem Own.alike {off : Caller → Prop} (hown : Own c bn bn' d d') (hoff : ∀ x, ¬ off x → ¬ x = c)
    (h : Alike off (c.held d) d e) :
    Alike off (c.held d') d' { e with rwCnt := e.rwCnt + (d'.rwCnt - d.rwCnt) } := by
  refine ⟨fun q hq => ?_, fun q hq => ?_, ?_⟩
  · rw [hown.readers q (hoff _ hq)]
    exact h.readers q hq
  · rw [hown.writers q (hoff _ hq)]
    exact h.writers q hq
  · have hcount : e.rwCnt = d.rwCnt := by rw [h.rest]; rfl
    have hnew : e.rwCnt + (d'.rwCnt - d.rwCnt) = d'.rwCnt := by omega
    simp only [hnew]
    rw [hown.absent, ← h.rest]

/-- What a step of somebody else does to the places of a reader and of a writer. -/
theorem step_waits (hstep : step g bn d l = some (bn', d')) :
    ∃ f h, (l.caller ≠ some (reader p) → (d'.readers p).pc = (d.readers p).pc.mapWait f) ∧
      (l.caller ≠ some (writer p) → (d'.writers p).pc = (d.writers p).pc.mapWait h) := by
  have hsame : (l.caller ≠ some (reader p) → d'.readers p = d.readers p) →
      (l.caller ≠ some (writer p) → d'.writers p = d.writers p) →
      ∃ f h, (l.caller ≠ some (reader p) → (d'.readers p).pc = (d.readers p).pc.mapWait f) ∧
        (l.caller ≠ some (writer p) → (d'.writers p).pc = (d.writers p).pc.mapWait h) := by
    intro hr hw
    refine ⟨id, id, fun hl => ?_, fun hl => ?_⟩
    · rw [hr hl, RdPc.mapWait_id]
    · rw [hw hl, WtPc.mapWait_id]
  cases step_cases hstep with
  | rdCall q count nonblock idle =>
    exact hsame (fun hl => Function.update_of_ne (fun h => hl (by rw [h]; rfl)) ..) fun _ => rfl
  | rdStep q copyOk sig =>
    obtain ⟨_, _, _, _, _, _, hframe⟩ := rdStep_frame g bn d q copyOk sig
    refine hsame (fun hl => ?_) fun _ => by rw [hframe]
    exact (rdStep_stepped g bn d q copyOk sig).others p fun h => hl (by rw [h]; rfl)
  | wtCall q count nonblock idle =>
    exact hsame (fun _ => rfl) fun hl => Function.update_of_ne (fun h => hl (by rw [h]; rfl)) ..
  | wtStep q copied sig =>
    obtain ⟨_, _, _, _, _, hframe⟩ := wtStep_frame g d q copied sig
    refine hsame (fun _ => by rw [hframe]) fun hl => ?_
    exact (wtStep_stepped g d q copied sig).others p fun h => hl (by rw [h]; rfl)
  | isrStep q blks n _ runs =>
    obtain ⟨_, _, hout⟩ := isrStep_patch d.readers d.writers [] d.hist.results runs
    obtain ⟨f, h, hd, _⟩ := hout.waits
    exact ⟨f, h, fun _ => by rw [hd.readers], fun _ => by rw [hd.writers]⟩
  | ctlStep q resetOk =>
    have hout : Outside d.readers d.writers [] d.hist.results d (d.ctlStep g q resetOk)
        ((d.patch d.readers d.writers [] d.hist.results).ctlStep g q resetOk) :=
      ctlStep_patch fun _ => rfl
    obtain ⟨f, h, hd, _⟩ := hout.waits
    exact ⟨f, h, fun _ => by rw [hd.readers], fun _ => by rw [hd.writers]⟩
  | isrCall | ctlCall => exact hsame (fun _ => rfl) fun _ => rfl

theorem served_others (hstep : step g bn d l = some (bn', d')) (hl : l.caller ≠ some c) :
    c.served d' = c.served d := by
  cases c with
  | reader p =>
    obtain ⟨f, _, hpc, _⟩ := step_waits (p := p) hstep
    simp only [served, hpc hl, RdPc.served_mapWait]
  | writer p =>
    obtain ⟨_, h, _, hpc⟩ := step_waits (p := p) hstep
    simp only [served, hpc hl, WtPc.served_mapWait]

theorem idle_others (hstep : step g bn d l = some (bn', d')) (hl : l.caller ≠ some c)
    (hidle : c.Idle d) : c.Idle d' := by
  cases c with
  | reader p =>
    obtain ⟨f, _, hpc, _⟩ := step_waits (p := p) hstep
    have hold : (d.readers p).pc = .idle := hidle
    exact (hpc hl).trans (by rw [hold]; rfl)
  | writer p =>
    obtain ⟨_, h, _, hpc⟩ := step_waits (p := p) hstep
    have hold : (d.writers p).pc = .idle := hidle
    exact (hpc hl).trans (by rw [hold]; rfl)

theorem held_others (hstep : step g bn d l = some (bn', d')) (hl : l.caller ≠ some c) :
    c.held d' = c.held d := by
  cases c with
  | reader p => rfl
  | writer p =>
    obtain ⟨_, h, _, hpc⟩ := step_waits (p := p) hstep
    simp only [held, wtHeld, hpc hl, WtPc.held_mapWait]

theorem rdStep_served {copyOk sig : Bool} (hold : (reader p).served d = true)
    (herr : returnsError d (.rdStep p copyOk sig) = true)
    (htrace : leavesTrace d (.rdStep p copyOk sig) = false) :
    (reader p).served (d.rdStep g bn p copyOk sig).2 = true := by
  have hpc' : (d.readers p).pc.served = true := hold
  unfold returnsError at herr
  unfold leavesTrace at htrace
  unfold Dev.rdStep
  cases hpc : (d.readers p).pc <;> rw [hpc] at hpc' <;> simp only [hpc] at herr htrace ⊢
  case bounceCopy | copyUser => split <;> simp [served, setRd_readers_self, RdPc.served]
  case bounceClear | copyBounce | bump | release | submit =>
    simp [served, releaseRead, setRd_readers_self, RdPc.served]
  case bounceBump => cases herr
  case requeue => cases htrace
  case exit ret =>
    simp only [RdPc.served, decide_eq_true_eq] at hpc' herr
    omega
  all_goals cases hpc'

theorem wtStep_served {copied : Option Bytes} {sig : Bool} (hold : (writer p).served d = true)
    (herr : returnsError d (.wtStep p copied sig) = true)
    (htrace : leavesTrace d (.wtStep p copied sig) = false) :
    (writer p).served (d.wtStep g p copied sig) = true := by
  have hpc' : (d.writers p).pc.served = true := hold
  unfold returnsError at herr
  unfold leavesTrace at htrace
  unfold Dev.wtStep
  cases hpc : (d.writers p).pc <;> rw [hpc] at hpc' <;> simp only [hpc] at herr htrace ⊢
  case commit b =>
    rw [Bool.not_eq_false'] at htrace
    unfold commitWrite
    rw [if_neg (by simp [htrace])]
    split <;> simp [served, setWt_writers_self, WtPc.served]
  case exit ret =>
    simp only [WtPc.served, decide_eq_true_eq] at hpc' herr
    omega
  all_goals cases hpc'

theorem held_of_idle (h : c.Idle d) : c.held d = [] := by
  cases c with
  | reader p => rfl
  | writer p =>
    have hpc : (d.writers p).pc = .idle := h
    simp [held, wtHeld, hpc, WtPc.held]

theorem not_served_of_idle (h : c.Idle d) : ¬ c.served d = true := by
  cases c with
  | reader p =>
    have hpc : (d.readers p).pc = .idle := h
    simp [served, hpc, RdPc.served]
  | writer p =>
    have hpc : (d.writers p).pc = .idle := h
    simp [served, hpc, WtPc.served]

/-- Who is served goes on to return its size, if its call leaves no trace. -/
theorem served_step (hstep : step g bn d l = some (bn', d'))
    (herr : l.caller = some c → returnsError d l = true) (hunseen : unseen c d l = true)
    (hold : c.served d = true) : c.served d' = true := by
  by_cases hl : l.caller = some c
  · have hreturns := herr hl
    have htrace : leavesTrace d l = false := by simpa [unseen, hl] using hunseen
    cases step_cases hstep with
    | rdCall p count nonblock idle =>
      cases hl
      simp [served, idle, RdPc.served] at hold
    | wtCall p count nonblock idle =>
      cases hl
      simp [served, idle, WtPc.served] at hold
    | rdStep p copyOk sig =>
      cases hl
      exact rdStep_served hold hreturns htrace
    | wtStep p copied sig =>
      cases hl
      exact wtStep_served hold hreturns htrace
    | isrCall | isrStep | ctlCall | ctlStep => cases hl
  · rw [served_others hstep hl]
    exact hold

end Caller

/-! ## Whole runs -/

theorem Dev.Same.alike {d e : Dev} (h : d.Same e) : Alike (fun _ => False) [] d e := by
  refine ⟨fun q _ => h.readers q, fun q _ => h.writers q, ?_⟩
  have hhist : e.hist = { d.hist with results := e.hist.results } := by
    simp only [← h.completed, ← h.takes, ← h.committed]
  unfold patch
  rw [← hhist, ← h.rd, ← h.dmaEnable, ← h.rwCnt, ← h.poolLive, ← h.isrs, ← h.ctls, ← h.wt, ← h.stat]
  simp

theorem Dev.Alike.same {d e : Dev} (h : Alike (fun _ => False) [] d e) : d.Same e := by
  have hrest := h.rest
  exact {
    rd := by rw [hrest]; rfl
    wt := by rw [hrest]; rfl
    stat := by rw [hrest]; simp [patch]
    dmaEnable := by rw [hrest]; rfl
    rwCnt := by rw [hrest]; rfl
    poolLive := by rw [hrest]; rfl
    isrs := by rw [hrest]; rfl
    ctls := by rw [hrest]; rfl
    readers := fun p => h.readers p id
    writers := fun p => h.writers p id
    completed := by rw [hrest]; rfl
    takes := by rw [hrest]; rfl
    committed := by rw [hrest]; rfl }

namespace Driver
variable {geo : Nat → Geometry} {i : Nat} {c : Caller} {s t e : Driver} {l : Nat × Label}

/-- Two modules that cannot be told apart make the same step. -/
theorem Same.step (h : s.Same i e) (hstep : Driver.step geo s l = some t) :
    ∃ f, Driver.step geo e l = some f ∧ t.Same i f := by
  obtain ⟨⟨bn, d⟩, hd, rfl⟩ := Option.map_eq_some_iff.mp hstep
  by_cases hi : l.1 = i
  · subst hi
    obtain ⟨d', hd', halike⟩ := h.dev.alike.step (fun _ _ => id) (fun _ => rfl) hd
    refine ⟨⟨bn, Function.update e.dev l.1 d'⟩, ?_, rfl, ?_, fun j hj => ?_⟩
    · rw [Driver.step, h.bounce, hd']
      rfl
    · simpa using halike.same
    · simpa [Function.update_of_ne hj] using h.others j hj
  · refine ⟨⟨bn, Function.update e.dev l.1 d⟩, ?_, rfl, ?_, fun j hj => ?_⟩
    · rw [Driver.step, h.bounce, h.others l.1 hi, hd]
      rfl
    · simpa [Function.update_of_ne (Ne.symm hi)] using h.dev
    · by_cases hjl : j = l.1
      · subst j
        simp
      · simpa [Function.update_of_ne hjl] using h.others j hj

/-- `e` is `s` without the calls of `c` on device `i`. -/
structure Without (i : Nat) (c : Caller) (s e : Driver) : Prop where
  bounce : e.bounce = s.bounce
  dev : Alike (· = c) (c.held (s.dev i)) (s.dev i) (e.dev i)
  idle : c.Idle (e.dev i)
  others : ∀ j, j ≠ i → e.dev j = s.dev j

theorem Without.init (hidle : c.Idle (s.dev i)) : Without i c s s := by
  refine ⟨rfl, ⟨fun _ _ => .inl rfl, fun _ _ => .inl rfl, ?_⟩, hidle, fun _ _ => rfl⟩
  rw [Caller.held_of_idle hidle, patch_self]

theorem Without.same (h : Without i c s e) (hidle : c.Idle (s.dev i)) : s.Same i e := by
  have hdev := h.dev
  rw [Caller.held_of_idle hidle] at hdev
  refine ⟨h.bounce, Alike.same ⟨fun q _ => ?_, fun q _ => ?_, hdev.rest⟩, h.others⟩
  · by_cases hq : Caller.reader q = c
    · subst hq
      exact .inr ⟨hidle, h.idle⟩
    · exact hdev.readers q hq
  · by_cases hq : Caller.writer q = c
    · subst hq
      exact .inr ⟨hidle, h.idle⟩
    · exact hdev.writers q hq

theorem Without.step (h : Without i c s e) (hold : c.served (s.dev i) = false)
    (hnew : c.served (t.dev i) = false) (hunseen : l.1 = i → unseen c (s.dev i) l.2 = true)
    (hstep : Driver.step geo s l = some t) :
    ∃ f, stepWithout geo i c (s, e) l = some (t, f) ∧ Without i c t f := by
  obtain ⟨⟨bn, d⟩, hd, ht⟩ := Option.map_eq_some_iff.mp hstep
  subst ht
  by_cases hi : l.1 = i
  · subst hi
    simp only [Function.update_self] at hnew
    by_cases hc : l.2.caller = some c
    · have hown := Caller.own_step hc hold hnew hd
      refine ⟨e.count l.1 (d.rwCnt - (s.dev l.1).rwCnt), ?_, ?_⟩
      · simp [stepWithout, hstep, hc]
      · refine ⟨h.bounce.trans hown.bounce.symm, ?_, ?_, fun j hj => ?_⟩
        · simpa [count] using hown.alike (fun _ => id) h.dev
        · have hidle := h.idle
          cases c <;> simpa [count, Caller.Idle] using hidle
        · simpa [count, Function.update_of_ne hj] using h.others j hj
    · have hfree : usesFreeHead (s.dev l.1) l.2 = true → c.held (s.dev l.1) = [] := by
        intro huses
        simpa [unseen, hc, huses] using hunseen rfl
      obtain ⟨d', hd', halike⟩ := h.dev.step (fun x hx hxc => hc (hx.trans (congrArg some hxc)))
        hfree hd
      refine ⟨⟨bn, Function.update e.dev l.1 d'⟩, ?_, rfl, ?_, ?_, fun j hj => ?_⟩
      · simp [stepWithout, hc, Driver.step, h.bounce, hd, hd']
      · simpa [Caller.held_others hd hc] using halike
      · simpa using Caller.idle_others hd' hc h.idle
      · simpa [Function.update_of_ne hj] using h.others j hj
  · refine ⟨⟨bn, Function.update e.dev l.1 d⟩, ?_, rfl, ?_, ?_, fun j hj => ?_⟩
    · simp [stepWithout, hi, Driver.step, h.bounce, h.others l.1 hi, hd]
    · simpa [Function.update_of_ne (Ne.symm hi)] using h.dev
    · simpa [Function.update_of_ne (Ne.symm hi)] using h.idle
    · by_cases hjl : j = l.1
      · subst j
        simp
      · simpa [Function.update_of_ne hjl] using h.others j hj

end Driver

/-- When all the calls of `c` in a run from a state in which it makes none are unseen and
return errors, and it makes none in the end: the module is as it is after the same run
without these calls, and every later run goes the same way. -/
theorem failed_call_invisible {geo : Nat → Geometry} {i : Nat} {c : Caller} {s t : Driver}
    {ls : List (Nat × Label)} (hbegin : c.Idle (s.dev i)) (hend : c.Idle (t.dev i))
    (herr : Along (Driver.step geo) (fun s l => l.1 = i → l.2.caller = some c →
      returnsError (s.dev i) l.2 = true) s ls)
    (hunseen : Along (Driver.step geo) (fun s l => l.1 = i → unseen c (s.dev i) l.2 = true) s ls)
    (hrun : exec (Driver.step geo) s ls = some t) :
    ∃ e, exec (Driver.stepWithout geo i c) (s, s) ls = some (t, e) ∧ t.Same i e ∧
      ∀ ms u, exec (Driver.step geo) t ms = some u →
        ∃ v, exec (Driver.step geo) e ms = some v ∧ u.Same i v := by
  have hkept : ∀ {s t : Driver} {l : Nat × Label}, c.served (s.dev i) = true →
      (l.1 = i → l.2.caller = some c → returnsError (s.dev i) l.2 = true) ∧
        (l.1 = i → unseen c (s.dev i) l.2 = true) →
      Driver.step geo s l = some t → c.served (t.dev i) = true := by
    rintro s t l hserved ⟨herr, hunseen⟩ hstep
    obtain ⟨⟨bn, d⟩, hd, rfl⟩ := Option.map_eq_some_iff.mp hstep
    by_cases hi : l.1 = i
    · subst hi
      simpa using Caller.served_step hd (herr rfl) (hunseen rfl) hserved
    · simpa [Function.update_of_ne (Ne.symm hi)] using hserved
  have hnever := along_avoids hkept (herr.and hunseen) hrun (Caller.not_served_of_idle hend)
  have hfollows : ∀ {s : Driver} {l : Nat × Label} {t : Driver} {x : Driver × Driver},
      x.1 = s ∧ Driver.Without i c s x.2 →
      (¬ c.served (s.dev i) = true ∧
        ∀ t, Driver.step geo s l = some t → ¬ c.served (t.dev i) = true) ∧
        (l.1 = i → unseen c (s.dev i) l.2 = true) →
      Driver.step geo s l = some t →
      ∃ y, Driver.stepWithout geo i c x l = some y ∧ y.1 = t ∧ Driver.Without i c t y.2 := by
    rintro s l t ⟨_, e⟩ ⟨rfl, hwithout⟩ ⟨⟨hold, hnew⟩, hl⟩ hstep
    obtain ⟨f, hf, hnext⟩ := hwithout.step (by simpa using hold) (by simpa using hnew t hstep) hl hstep
    exact ⟨(t, f), hf, rfl, hnext⟩
  obtain ⟨⟨_, e⟩, hpair, rfl, hwithout⟩ :=
    exec_follows (e := (s, s)) @hfollows ⟨rfl, .init hbegin⟩ (hnever.and hunseen) hrun
  have hsame := hwithout.same hend
  refine ⟨e, hpair, hsame, fun ms u hms => ?_⟩
  exact exec_follows (fun h _ => h.step) hsame (along_of_forall fun _ _ => trivial) hms

def started : List (Nat × Label) := (0, .ctlCall 0 .start) :: List.replicate 4 (0, .ctlStep 0 true)

/-- A write whose copy fails while a read finds nothing. -/
theorem failed_call_invisible_one_write :
    let s : Driver := ⟨{}, fun _ => Dev.init smallCard⟩
    let ls := started ++ (0, .wtCall 1 4096 false) :: List.replicate 5 (0, .wtStep 1 none false) ++
      (0, .rdCall 2 4096 true) :: List.replicate 6 (0, .rdStep 2 true false) ++
      List.replicate 2 (0, .wtStep 1 none false)
    ∃ t e, exec (Driver.stepWithout (fun _ => smallCard) 0 (.writer 1)) (s, s) ls = some (t, e) ∧
      t.Same 0 e ∧ ∀ ms u, exec (Driver.step fun _ => smallCard) t ms = some u →
        ∃ v, exec (Driver.step fun _ => smallCard) e ms = some v ∧ u.Same 0 v := by
  intro s ls
  have hend : ∃ t, exec (Driver.step fun _ => smallCard) s ls = some t ∧
      (Caller.writer 1).Idle (t.dev 0) :=
    exists_end_view _ (fun t : Driver => ((t.dev 0).writers 1).pc) (v := .idle) (by decide +kernel)
      fun t _ hview => hview
  obtain ⟨t, hrun, hidle⟩ := hend
  obtain ⟨e, hall⟩ := @failed_call_invisible (fun _ => smallCard) 0 (.writer 1) s t ls rfl hidle
    (by decide +kernel) (by decide +kernel) hrun
  exact ⟨t, e, hall⟩

/-- A read whose copy fails puts its block back, and the next read does not get it. A write
during whose copy DMA is stopped loses its buffer. -/
theorem failed_calls_leave_traces :
    let s : Driver := ⟨{}, fun _ => Dev.init smallCard⟩
    let read := started ++ [(0, .isrCall 0), (0, .isrStep 0 [List.replicate 4096 7] 0)] ++
      (0, .rdCall 1 4096 false) :: List.replicate 10 (0, .rdStep 1 false false) ++
      (0, .rdCall 2 4096 false) :: List.replicate 11 (0, .rdStep 2 true false)
    let write := started ++ (0, .wtCall 1 4096 false) ::
      List.replicate 5 (0, .wtStep 1 (some (List.replicate 4096 7)) false) ++
      [(0, .ctlCall 0 .stop), (0, .ctlStep 0 true)] ++ List.replicate 2 (0, .wtStep 1 none false)
    (∃ t e, Along (Driver.step fun _ => smallCard) (fun s l => l.1 = 0 →
          l.2.caller = some (.reader 1) → returnsError (s.dev 0) l.2 = true) s read ∧
        exec (Driver.stepWithout (fun _ => smallCard) 0 (.reader 1)) (s, s) read = some (t, e) ∧
        (Caller.reader 1).Idle (t.dev 0) ∧ ¬ t.Same 0 e) ∧
      ∃ t e, Along (Driver.step fun _ => smallCard) (fun s l => l.1 = 0 →
          l.2.caller = some (.writer 1) → returnsError (s.dev 0) l.2 = true) s write ∧
        exec (Driver.stepWithout (fun _ => smallCard) 0 (.writer 1)) (s, s) write = some (t, e) ∧
        (Caller.writer 1).Idle (t.dev 0) ∧ ¬ t.Same 0 e := by
  intro s read write
  constructor
  · have hend : ∃ x, exec (Driver.stepWithout (fun _ => smallCard) 0 (.reader 1)) (s, s) read =
        some x ∧ ((x.1.dev 0).readers 1).pc = .idle ∧ (x.1.dev 0).rd.pending = [0] ∧
          (x.2.dev 0).rd.pending = [] := by
      refine exists_end_view _ (fun x : Driver × Driver =>
        (((x.1.dev 0).readers 1).pc, (x.1.dev 0).rd.pending, (x.2.dev 0).rd.pending))
        (v := (.idle, [0], [])) (by decide +kernel) fun x _ hview => ?_
      simpa using hview
    obtain ⟨⟨t, e⟩, hrun, hidle, ht, he⟩ := hend
    refine ⟨t, e, by decide +kernel, hrun, hidle, fun hsame => ?_⟩
    have hrd := hsame.dev.rd
    simp only at ht he
    rw [hrd, ht] at he
    cases he
  · have hend : ∃ x, exec (Driver.stepWithout (fun _ => smallCard) 0 (.writer 1)) (s, s) write =
        some x ∧ ((x.1.dev 0).writers 1).pc = .idle ∧ (x.1.dev 0).wt.free = [1] ∧
          (x.2.dev 0).wt.free = [0, 1] := by
      refine exists_end_view _ (fun x : Driver × Driver =>
        (((x.1.dev 0).writers 1).pc, (x.1.dev 0).wt.free, (x.2.dev 0).wt.free))
        (v := (.idle, [1], [0, 1])) (by decide +kernel) fun x _ hview => ?_
      simpa using hview
    obtain ⟨⟨t, e⟩, hrun, hidle, ht, he⟩ := hend
    refine ⟨t, e, by decide +kernel, hrun, hidle, fun hsame => ?_⟩
    have hwt := hsame.dev.wt
    simp only at ht he
    rw [hwt, ht] at he
    cases he

end PdmaXen.Pdma
