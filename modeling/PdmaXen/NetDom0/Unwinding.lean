import PdmaXen.NetDom0.Startup

/-!
# What `dom_init` acquires and `dom_exit` gives back

`dom_init` has an error path that no error leads to, and `dom_exit` gives back the
file, the threads and the driver only.
-/

namespace PdmaXen.NetDom0.Startup
set_option autoImplicit false
open Machine

def InitPc.failed : InitPc → Bool
  | .returned err => err != 0
  | .faulted => true
  | _ => false

/-- Everything acquired was released once, and nothing under a thread that uses it. -/
def State.Settled (s : State) : Prop := s.released.Perm s.acquired ∧ s.early = false

/-- A `dom_init` that fails leaves nothing behind. A `dom_exit` can come to its end, and when it
does nothing is left either. -/
structure Unwinds (env : Env) (s : State) : Prop where
  init : s.init.failed = true → s.Settled
  exit : s.exit ≠ .loaded →
    (∃ ls t, exec (step env) s ls = some t ∧ t.exit = .unloaded) ∧
      ∀ ls t, exec (step env) s ls = some t → t.exit = .unloaded → t.Settled

/-- `dom_init` gets every allocation that it goes on to use, and `dom_exit` is not called. -/
def Survives (env : Env) (s : State) : Step → Prop
  | .init a => match s.init with
    | .remoteBuf => s.remoteInfo = true
    | .secondQueue => s.firstQueue = true ∧ a.ok = true
    | .pendingFree => env.reqs ≤ 0 ∨ s.pendingReqs = true
    | _ => True
  | .exit => s.init ≠ .returned 0
  | _ => True

/-- What `dom_exit` gives back. -/
def Resource.givenBack : Resource → Bool
  | .file | .reqthrd | .conthrd | .driver => true
  | _ => false

/-- In every run: `dom_init` returns no error, and only what `dom_exit` gives back is released. -/
structure Sound (s : State) : Prop where
  err : ∀ err, s.init = .returned err → err = 0
  released : ∀ r ∈ s.released, r.givenBack = true

variable {env : Env} {s t : State}

/-- What a step does to `dom_init`'s progress and to the resources, unless it is a step of
`dom_init` or `dom_exit`. -/
structure Keeps (s t : State) : Prop where
  init : t.init = s.init
  exit : t.exit = s.exit
  released : t.released = s.released
  early : t.early = s.early
  acquired : s.acquired ⊆ t.acquired

theorem Keeps.refl (s : State) : Keeps s s := ⟨rfl, rfl, rfl, rfl, List.Subset.refl _⟩

theorem acquire_subset (r : Resource) (ok : Bool) : s.acquired ⊆ (s.acquire r ok).acquired :=
  List.subset_append_left _ _

theorem keeps_probeStep (d : Dom) (a : InfoAnswer) : Keeps s (s.probeStep d a) := by
  rw [State.probeStep]
  split
  · exact .refl s
  · split
    case h_3 => split <;> exact ⟨rfl, rfl, rfl, rfl, List.Subset.refl _⟩
    all_goals exact ⟨rfl, rfl, rfl, rfl, List.Subset.refl _⟩

theorem keeps_sockStep (ok : Bool) : Keeps s (s.sockStep env ok) := by
  rw [State.sockStep]
  split
  · exact .refl s
  · split
    case h_1 => exact ⟨rfl, rfl, rfl, rfl, acquire_subset _ _⟩
    case h_2 => exact ⟨rfl, rfl, rfl, rfl, acquire_subset _ _⟩
    case h_3 => split <;> exact ⟨rfl, rfl, rfl, rfl, List.Subset.refl _⟩
    case h_4 => exact .refl s

structure InitMoves (env : Env) (s : State) (a : InitAnswer) (t : State) : Prop where
  exit : t.exit = s.exit
  released : t.released = s.released
  early : t.early = s.early
  acquired : s.acquired ⊆ t.acquired
  err : ∀ err, t.init = .returned err → err = 0 ∨ s.init = .returned err
  begun : t.init ≠ .chrbk
  broken : ¬Survives env s (.init a) → t.init = .faulted
  faulted : t.init = .faulted → Survives env s (.init a) → s.init = .faulted ∨ s.init = .chrbk
  chrbk : s.init = .chrbk → if t.init = .faulted then t.acquired = s.acquired
    else .chrbk ∈ t.acquired
  stays : s.init = .faulted ∨ s.init = .returned 0 → t = s
  thread : t.conthrd = .created → s.conthrd = .created ∨ t.init = .returned 0

theorem initStep_moves (env : Env) (s : State) (a : InitAnswer) :
    InitMoves env s a (s.initStep env a) := by
  cases hpc : s.init with
  | chrbk =>
    cases hok : a.ok <;> constructor <;> simp [State.initStep, hpc, hok, State.acquire, Survives]
  | pendingReqs | remoteInfo | openDev | firstQueue | reqthrd | conthrd =>
    constructor <;> simp [State.initStep, hpc, State.acquire, Survives]
  | remoteBuf =>
    cases hinfo : s.remoteInfo <;> constructor <;>
      simp [State.initStep, hpc, hinfo, State.acquire, Survives]
  | secondQueue =>
    by_cases hqueues : s.firstQueue = true ∧ a.ok = true <;> constructor <;>
      simp [State.initStep, hpc, hqueues, State.acquire, Survives]
  | pendingFree =>
    by_cases hreqs : env.reqs ≤ 0 ∨ s.pendingReqs = true <;> constructor <;>
      simp [State.initStep, hpc, hreqs, Survives]
  | xenbusInit =>
    cases hdev : s.devOn <;> constructor <;>
      simp [State.initStep, hpc, hdev, State.xenChrifXenbusInit, State.acquire, Survives]
  | returned err =>
    constructor
    case thread =>
      intro hthread
      left
      simpa [State.initStep, hpc] using hthread
    all_goals simp [State.initStep, hpc, Survives]
  | faulted =>
    constructor <;> simp [State.initStep, hpc, Survives]

/-! ## What is never given back -/

theorem exitStep_frame :
    s.exitStep.init = s.init ∧ s.exitStep.acquired = s.acquired := by
  rw [State.exitStep]
  split
  · exact ⟨rfl, rfl⟩
  · split <;> first | exact ⟨rfl, rfl⟩ | (split <;> exact ⟨rfl, rfl⟩)

theorem exitStep_released (h : ∀ r ∈ s.released, r.givenBack = true) :
    ∀ r ∈ s.exitStep.released, r.givenBack = true := by
  have happend : ∀ r, r.givenBack = true → ∀ r' ∈ s.released ++ [r], r'.givenBack = true := by
    intro r hr r' hmem
    rcases List.mem_append.mp hmem with hmem | hmem
    · exact h r' hmem
    · rw [List.mem_singleton.mp hmem]
      exact hr
  rw [State.exitStep]
  split
  · exact h
  · split
    case h_1 =>
      split
      · exact h
      · exact happend .file rfl
      · exact h
    case h_2 => split <;> exact h
    case h_3 =>
      split
      · exact happend .reqthrd rfl
      · exact h
    case h_4 => split <;> exact h
    case h_5 =>
      split
      · exact happend .conthrd rfl
      · exact h
    case h_6 =>
      cases hreg : s.registered with
      | true => exact happend .driver rfl
      | false =>
        rw [if_neg Bool.false_ne_true, List.append_nil]
        exact h
    all_goals exact h

theorem Sound.start : Sound start := by
  constructor
  · intro err h
    cases h
  · intro r hr
    exact absurd hr List.not_mem_nil

theorem Sound.of_keeps (h : Sound s) (hkeeps : Keeps s t) : Sound t := by
  constructor
  · rw [hkeeps.init]
    exact h.err
  · rw [hkeeps.released]
    exact h.released

theorem Sound.step {l : Step} (h : Sound s) (hstep : step env s l = some t) : Sound t := by
  cases l with
  | init a =>
    obtain rfl : s.initStep env a = t := Option.some.inj hstep
    have hmoves := initStep_moves env s a
    constructor
    · intro err herr
      rcases hmoves.err err herr with herr | herr
      · exact herr
      · exact h.err err herr
    · rw [hmoves.released]
      exact h.released
  | probe d a =>
    obtain rfl : s.probeStep d a = t := Option.some.inj hstep
    exact h.of_keeps (keeps_probeStep d a)
  | sock ok =>
    obtain rfl : s.sockStep env ok = t := Option.some.inj hstep
    exact h.of_keeps (keeps_sockStep ok)
  | run l =>
    obtain rfl : s.runStep env l = t := Option.some.inj hstep
    exact h.of_keeps ⟨rfl, rfl, rfl, rfl, List.Subset.refl _⟩
  | exit =>
    obtain rfl : s.exitStep = t := Option.some.inj hstep
    constructor
    · rw [exitStep_frame.1]
      exact h.err
    · exact exitStep_released h.released

theorem step_acquired {l : Step} (hstep : step env s l = some t) : s.acquired ⊆ t.acquired := by
  cases l with
  | init a =>
    obtain rfl : s.initStep env a = t := Option.some.inj hstep
    exact (initStep_moves env s a).acquired
  | probe d a =>
    obtain rfl : s.probeStep d a = t := Option.some.inj hstep
    exact (keeps_probeStep d a).acquired
  | sock ok =>
    obtain rfl : s.sockStep env ok = t := Option.some.inj hstep
    exact (keeps_sockStep ok).acquired
  | run l =>
    obtain rfl : s.runStep env l = t := Option.some.inj hstep
    exact List.Subset.refl _
  | exit =>
    obtain rfl : s.exitStep = t := Option.some.inj hstep
    rw [exitStep_frame.2]
    exact List.Subset.refl _

theorem not_settled (h : Sound s) (hchrbk : .chrbk ∈ s.acquired) : ¬s.Settled := by
  intro hsettled
  have hreleased := h.released .chrbk (hsettled.1.mem_iff.mpr hchrbk)
  cases hreleased

theorem not_unwinds_of_exit (h : Sound s) (hchrbk : .chrbk ∈ s.acquired)
    (hexit : s.exit ≠ .loaded) : ¬Unwinds env s := by
  intro hunwinds
  obtain ⟨⟨ls, t, hrun, hend⟩, hall⟩ := hunwinds.exit hexit
  obtain ⟨hsound, hmem⟩ := invariant (I := fun s => Sound s ∧ .chrbk ∈ s.acquired)
    (fun hs hstep => ⟨hs.1.step hstep, step_acquired hstep hs.2⟩) ⟨h, hchrbk⟩ hrun
  exact not_settled hsound hmem (hall ls t hrun hend)

/-! ## Runs that never fail nor exit -/

/-- As long as every step survives, nothing was released, and a `dom_init` that stopped holds
nothing. -/
structure Tidy (s : State) : Prop where
  sound : Sound s
  exit : s.exit = .loaded
  released : s.released = []
  early : s.early = false
  empty : s.init = .faulted ∨ s.init = .chrbk → s.acquired = []
  chrbk : s.init ≠ .faulted → s.init ≠ .chrbk → .chrbk ∈ s.acquired
  thread : s.conthrd = .created → s.init = .returned 0

theorem Tidy.start : Tidy start := by
  refine ⟨.start, rfl, rfl, rfl, fun _ => rfl, fun _ h => absurd rfl h, fun h => ?_⟩
  cases h

theorem Tidy.unwinds (h : Tidy s) : Unwinds env s := by
  constructor
  · intro hfailed
    have hfaulted : s.init = .faulted := by
      cases hpc : s.init with
      | faulted => rfl
      | returned err =>
        obtain rfl := h.sound.err err hpc
        rw [hpc] at hfailed
        cases hfailed
      | _ =>
        rw [hpc] at hfailed
        cases hfailed
    refine ⟨?_, h.early⟩
    rw [h.released, h.empty (.inl hfaulted)]
  · intro hexit
    exact absurd h.exit hexit

theorem Tidy.initStep (h : Tidy s) {a : InitAnswer} (hsurvives : Survives env s (.init a)) :
    Tidy (s.initStep env a) := by
  have hmoves := initStep_moves env s a
  have hstep : Startup.step env s (.init a) = some (s.initStep env a) := rfl
  refine ⟨h.sound.step hstep, hmoves.exit.trans h.exit,
    hmoves.released.trans h.released, hmoves.early.trans h.early, ?_, ?_, ?_⟩
  · rintro (hfaulted | hbegun)
    · rcases hmoves.faulted hfaulted hsurvives with hs | hs
      · rw [hmoves.stays (.inl hs)]
        exact h.empty (.inl hs)
      · have hfirst := hmoves.chrbk hs
        rw [if_pos hfaulted] at hfirst
        rw [hfirst]
        exact h.empty (.inr hs)
    · exact absurd hbegun hmoves.begun
  · intro hfaulted _
    by_cases hs : s.init = .chrbk
    · have hfirst := hmoves.chrbk hs
      rwa [if_neg hfaulted] at hfirst
    · refine hmoves.acquired (h.chrbk (fun hs' => hfaulted ?_) hs)
      rw [hmoves.stays (.inl hs')]
      exact hs'
  · intro hthread
    rcases hmoves.thread hthread with hs | ht
    · rw [hmoves.stays (.inr (h.thread hs))]
      exact h.thread hs
    · exact ht

theorem Tidy.of_keeps (h : Tidy s) (hkeeps : Keeps s t)
    (hsame : s.init ≠ .returned 0 → t.acquired = s.acquired) (hthread : t.conthrd = s.conthrd) :
    Tidy t := by
  refine ⟨h.sound.of_keeps hkeeps, hkeeps.exit.trans h.exit, hkeeps.released.trans h.released,
    hkeeps.early.trans h.early, ?_, ?_, ?_⟩
  · rw [hkeeps.init]
    intro hinit
    rw [hsame (by rcases hinit with hinit | hinit <;> simp [hinit])]
    exact h.empty hinit
  · rw [hkeeps.init]
    exact fun hfaulted hbegun => hkeeps.acquired (h.chrbk hfaulted hbegun)
  · rw [hkeeps.init, hthread]
    exact h.thread

theorem probeStep_same (d : Dom) (a : InfoAnswer) :
    (s.probeStep d a).acquired = s.acquired ∧ (s.probeStep d a).conthrd = s.conthrd := by
  rw [State.probeStep]
  split
  · exact ⟨rfl, rfl⟩
  · split
    case h_3 => split <;> exact ⟨rfl, rfl⟩
    all_goals exact ⟨rfl, rfl⟩

theorem sockStep_conthrd (ok : Bool) : (s.sockStep env ok).conthrd = s.conthrd := by
  rw [State.sockStep]
  split
  · rfl
  · split
    case h_3 => split <;> rfl
    all_goals rfl

theorem Tidy.step {l : Step} (h : Tidy s) (hsurvives : Survives env s l)
    (hstep : step env s l = some t) : Tidy t := by
  cases l with
  | init a =>
    obtain rfl : s.initStep env a = t := Option.some.inj hstep
    exact h.initStep hsurvives
  | probe d a =>
    obtain rfl : s.probeStep d a = t := Option.some.inj hstep
    exact h.of_keeps (keeps_probeStep d a) (fun _ => (probeStep_same d a).1) (probeStep_same d a).2
  | sock ok =>
    obtain rfl : s.sockStep env ok = t := Option.some.inj hstep
    refine h.of_keeps (keeps_sockStep ok) (fun hinit => ?_) (sockStep_conthrd ok)
    rw [State.sockStep, if_pos fun hthread => hinit (h.thread hthread)]
  | run l =>
    obtain rfl : s.runStep env l = t := Option.some.inj hstep
    exact h.of_keeps ⟨rfl, rfl, rfl, rfl, List.Subset.refl _⟩ (fun _ => rfl) rfl
  | exit =>
    obtain rfl : s.exitStep = t := Option.some.inj hstep
    have hinit : s.init ≠ .returned 0 := hsurvives
    rwa [State.exitStep, if_pos hinit]

/-- A step that does not survive leaves `dom_init` faulted with `chrbk` held, or enters
`dom_exit`. -/
theorem not_unwinds_of_broken {l : Step} (h : Tidy s) (hbroken : ¬Survives env s l)
    (hstep : step env s l = some t) : ¬Unwinds env t := by
  have hsound := h.sound.step hstep
  cases l with
  | init a =>
    obtain rfl : s.initStep env a = t := Option.some.inj hstep
    have hfaulted := (initStep_moves env s a).broken hbroken
    have hchrbk : .chrbk ∈ s.acquired := by
      apply h.chrbk
      · intro hs
        exact hbroken (by simp [Survives, hs])
      · intro hs
        exact hbroken (by simp [Survives, hs])
    intro hunwinds
    exact not_settled hsound (step_acquired hstep hchrbk) (hunwinds.init (by rw [hfaulted]; rfl))
  | probe d a => exact absurd trivial hbroken
  | sock ok => exact absurd trivial hbroken
  | run l => exact absurd trivial hbroken
  | exit =>
    obtain rfl : s.exitStep = t := Option.some.inj hstep
    have hinit : s.init = .returned 0 := by
      by_contra hinit
      exact hbroken hinit
    have hchrbk : .chrbk ∈ s.acquired := h.chrbk (by simp [hinit]) (by simp [hinit])
    refine not_unwinds_of_exit hsound (step_acquired hstep hchrbk) ?_
    rw [State.exitStep, if_neg (not_not_intro hinit), h.exit]
    cases s.filp <;> simp

/-- `dom_init` and `dom_exit` unwind in exactly the runs in which `dom_init` gets every
allocation that it uses and `dom_exit` is never called. In no run does `dom_init` return an
error, and only the file, the threads and the driver are ever released. -/
theorem init_exit_unwind_iff (env : Env) (ls : List Step) :
    (Along (step env) (Survives env) start ls ↔
      ∀ ms, ms <+: ls → ∀ s, exec (step env) start ms = some s → Unwinds env s) ∧
    ∃ s, exec (step env) start ls = some s ∧ Sound s := by
  constructor
  · exact along_iff_always (I := Tidy) (step_total env) (fun hs hl h => hs.step hl h)
      (fun hs => hs.unwinds) (fun hs hl h => not_unwinds_of_broken hs hl h) Tidy.start
  · obtain ⟨s, hs⟩ := exec_total (step_total env) start ls
    exact ⟨s, hs, invariant (fun h hstep => h.step hstep) Sound.start hs⟩

def loadedThenExited : List Step :=
  loaded ++ [.sock true, .sock false, .sock true, .exit, .exit, .run .reqthrd] ++
    List.replicate 4 .exit

def noRemoteInfo : List Step := [.init ⟨true, .null⟩, .init ⟨true, .null⟩, .init ⟨false, .null⟩,
  .init ⟨true, .null⟩]

theorem exit_leaves_memory :
    (exec (step ⟨8, false, 64⟩) start loadedThenExited).map
      (fun s => (s.exit, s.acquired, s.released, s.early)) = some (.unloaded,
        [.chrbk, .pendingReqs, .remoteInfo, .remoteBuf, .file, .nativeQueue, .sendtocliQueue,
          .driver, .reqthrd, .conthrd, .sockMem],
        [.file, .reqthrd, .conthrd, .driver], true) ∧
    (exec (step ⟨8, false, 64⟩) start noRemoteInfo).map
      (fun s => (s.init, s.acquired, s.released)) =
        some (.faulted, [.chrbk, .pendingReqs, .remoteBuf], []) := by
  constructor <;> rfl

end PdmaXen.NetDom0.Startup
