import PdmaXen.Dom0.Threads

/-!
# Waiting for the device

A READ that ends its session gives the device away, looks whether anybody is on
`write_pdma_wq`, and if so sets `write_pdma_ws` and wakes the queue. A WRITE decides
to wait and joins the queue in separate steps, so the look may come between them. It
misses nobody when the session ends while no other thread is between these steps.
-/

namespace PdmaXen.Dom0
set_option autoImplicit false
open Machine

def Pc.waking : Pc → Bool
  | .read _ .clear | .read _ .release | .read _ .active | .read _ .setWs | .read _ .wake => true
  | _ => false

def Pc.isAsleep : Pc → Bool
  | .write _ .asleep => true
  | _ => false

def Pc.retesting : Pc → Bool
  | .write _ .waitRetest => true
  | _ => false

def State.sleeping (s : State) (d : Dom) : Prop := (s.pc d).isAsleep ∧ d ∈ s.writePdmaWq

/-- Somebody has the device, or a thread has the wake-up still to do. -/
def State.Covered (s : State) : Prop := s.wtingDomuId ≠ none ∨ ∃ e, (s.pc e).waking

/-- The device is free, a thread sleeps for its turn, and nobody is going to wake it. -/
structure Lost (s : State) : Prop where
  released : s.wtingDomuId = none
  unsignalled : s.writePdmaWs = false
  asleep : ∃ d, s.sleeping d
  unwoken : ∀ e, (s.pc e).waking = false

/-- A thread that goes to sleep on the queue does so while the device is taken or a
wake-up is under way. -/
def SleepsCovered (s : State) : Label → Prop
  | .take _ _ => True
  | .run d _ => (s.pc d).retesting → s.writePdmaWs = false → d ∈ s.writePdmaWq → s.Covered

def Watched (s : State) : Prop := ∀ d, s.sleeping d → s.Covered

section
variable {cfg : Config} {s s₁ t : State} {d : Dom}

theorem Watched.of_covered (h : s.Covered) : Watched s := fun _ _ => h

theorem Watched.of_nil (h : s.writePdmaWq = []) : Watched s := by
  intro d hd
  have hmem := hd.2
  rw [h] at hmem
  cases hmem

/-- `s₁` differs from `s` at most in what no waiter looks at. -/
structure Alike (s s₁ : State) : Prop where
  pc : s₁.pc = s.pc := by rfl
  wting : s₁.wtingDomuId = s.wtingDomuId := by rfl
  ws : s₁.writePdmaWs = s.writePdmaWs := by rfl
  wq : s₁.writePdmaWq = s.writePdmaWq := by rfl

theorem covered_goto {pc : Pc} (h : pc.waking) : (s.goto d pc).Covered :=
  .inr ⟨d, by rw [goto_pc_self]; exact h⟩

theorem State.Covered.goto (h : s.Covered) {pc : Pc} (hpc : s₁.pc = s.pc)
    (hwting : s₁.wtingDomuId = s.wtingDomuId) (hwakes : (s.pc d).waking → pc.waking) :
    (s₁.goto d pc).Covered := by
  rcases h with htaken | ⟨e, he⟩
  · exact .inl (by rw [goto_wtingDomuId, hwting]; exact htaken)
  · rcases eq_or_ne e d with rfl | hne
    · exact covered_goto (hwakes he)
    · exact .inr ⟨e, by rw [goto_pc_of_ne _ _ _ hne, hpc]; exact he⟩

theorem Watched.goto (h : Watched s) {pc : Pc} (hpc : s₁.pc = s.pc)
    (hwting : s₁.wtingDomuId = s.wtingDomuId)
    (hwq : ∀ e, e ≠ d → e ∈ s₁.writePdmaWq → e ∈ s.writePdmaWq) (hawake : pc.isAsleep = false)
    (hwakes : (s.pc d).waking → pc.waking) : Watched (s₁.goto d pc) := by
  intro e he
  rcases eq_or_ne e d with rfl | hne
  · have hself := he.1
    rw [goto_pc_self, hawake] at hself
    cases hself
  · have hpce := he.1
    rw [goto_pc_of_ne _ _ _ hne, hpc] at hpce
    exact (h e ⟨hpce, hwq e hne he.2⟩).goto hpc hwting hwakes

theorem Watched.move (h : Watched s) (hs : Alike s s₁) {pc : Pc} (hawake : pc.isAsleep = false)
    (hwakes : (s.pc d).waking → pc.waking) : Watched (s₁.goto d pc) :=
  h.goto hs.pc hs.wting (fun _ _ hmem => hs.wq ▸ hmem) hawake hwakes

theorem Watched.call (h : Watched s) {pc : Pc} (o : DevOp) (hawake : pc.isAsleep = false)
    (hwakes : (s.pc d).waking = false) : Watched (s.call d o pc) := by
  have hno : ∀ {b : Prop}, (s.pc d).waking → b := fun hw => absurd hw (by simp [hwakes])
  unfold State.call
  split
  · exact h.move {} hawake hno
  · exact h.move {} rfl hno

theorem Watched.lockThen (h : Watched s) {pc : Pc} (hawake : pc.isAsleep = false)
    (hwakes : (s.pc d).waking = false) : Watched (s.lockThen d pc) := by
  unfold State.lockThen
  split
  · exact h.move {} hawake fun hw => absurd hw (by simp [hwakes])
  · exact h

theorem Watched.writeStep (h : Watched s) (env : Env) {req : Request} {pc : WritePc}
    (hpc : s.pc d = .write req pc) (hc : SleepsCovered s (.run d env)) :
    Watched (s.writeStep cfg d env req pc) := by
  have hwakes : (s.pc d).waking = false := by rw [hpc]; rfl
  have hno : ∀ {b : Prop}, (s.pc d).waking → b := fun hw => absurd hw (by simp [hwakes])
  cases pc with
  | lock => exact h.lockThen rfl hwakes
  | ownerTest =>
    refine h.move {} ?_ hno
    split <;> rfl
  | claim => exact .of_covered (.inl (Option.some_ne_none d))
  | ownTest =>
    refine h.move {} ?_ hno
    split <;> rfl
  | waitTest =>
    refine h.move {} ?_ hno
    split <;> rfl
  | prepare =>
    refine h.goto rfl rfl (fun e he hmem => ?_) rfl hno
    rcases List.mem_cons.mp hmem with rfl | hmem
    · exact absurd rfl he
    · exact hmem
  | waitRetest =>
    simp only [State.writeStep]
    split
    · exact h.goto rfl rfl (fun e _ hmem => List.mem_of_mem_filter hmem) rfl hno
    · next hws =>
      intro e he
      rcases eq_or_ne e d with rfl | hne
      · exact (hc (by rw [hpc]; rfl) (by simpa using hws) he.2).goto rfl rfl hno
      · have hpce := he.1
        rw [goto_pc_of_ne _ _ _ hne] at hpce
        exact (h e ⟨hpce, he.2⟩).goto rfl rfl hno
  | asleep =>
    simp only [State.writeStep]
    split
    · exact h
    · exact h.move {} rfl hno
  | takeOver => exact .of_covered (.inl (Option.some_ne_none d))
  | resetTest =>
    refine h.move {} ?_ hno
    split <;> rfl
  | lenTest =>
    refine h.move {} ?_ hno
    split <;> rfl
  | block =>
    refine h.call _ ?_ hwakes
    split <;> rfl
  | finish =>
    refine h.move {} ?_ hno
    split <;> rfl
  | reset | lenReg => exact h.call _ rfl hwakes
  | clearWs => exact h.goto rfl rfl (fun _ _ hmem => hmem) rfl hno
  | unlockWait | account | respond | clear | unlock => exact h.move {} rfl hno

theorem Watched.readStep (h : Watched s) (env : Env) {req : Request} {pc : ReadPc}
    (hpc : s.pc d = .read req pc) : Watched (s.readStep cfg d env req pc) := by
  cases pc with
  | regTest =>
    refine h.move {} ?_ (by rw [hpc]; nofun)
    split <;> rfl
  | reg => exact h.call _ rfl (by rw [hpc]; rfl)
  | block val =>
    refine h.call _ ?_ (by rw [hpc]; rfl)
    split <;> rfl
  | respond val => exact h.move {} rfl (by rw [hpc]; nofun)
  | account val => exact h.move {} rfl (by rw [hpc]; nofun)
  | finish val =>
    refine h.move {} ?_ (by rw [hpc]; nofun)
    split <;> rfl
  | clear => exact .of_covered (covered_goto rfl)
  | release => exact .of_covered (covered_goto rfl)
  | active =>
    simp only [State.readStep]
    split
    · next hnil => exact .of_nil hnil
    · exact .of_covered (covered_goto rfl)
  | setWs => exact .of_covered (covered_goto rfl)
  | wake => exact .of_nil rfl
  | reset => exact h.call _ rfl (by rw [hpc]; rfl)

theorem Watched.threadStep (h : Watched s) (env : Env) (hc : SleepsCovered s (.run d env)) :
    Watched (s.threadStep cfg d env) := by
  unfold State.threadStep
  cases hpc : s.pc d with
  | idle | dead => exact h
  | openCount req =>
    refine h.move {} ?_ (by rw [hpc]; nofun)
    split <;> rfl
  | closeCount req =>
    refine h.move {} ?_ (by rw [hpc]; nofun)
    split <;> rfl
  | write req pc => exact h.writeStep env hpc hc
  | read req pc => exact h.readStep env hpc
  | ioctlLock req => exact h.lockThen rfl (by rw [hpc]; rfl)
  | ioctlStat req => exact h.call _ rfl (by rw [hpc]; rfl)
  | openFile req | closeFile req | ioctlRespond req | ioctlUnlock | respond req =>
    exact h.move {} rfl (by rw [hpc]; nofun)

theorem begin_isAsleep (req : Request) : (State.begin req).isAsleep = false := by
  unfold State.begin
  split <;> rfl

theorem Watched.step (h : Watched s) {l : Label} (hc : SleepsCovered s l)
    (hstep : step cfg s l = some t) : Watched t := by
  cases l with
  | take d req =>
    cases hstep
    unfold State.takeStep
    split
    · next hpc => exact h.move {} (begin_isAsleep req) (by rw [hpc]; nofun)
    · exact h
  | run d env =>
    cases hstep
    exact h.threadStep env hc

theorem Watched.not_lost (h : Watched s) : ¬Lost s := by
  intro hlost
  obtain ⟨d, hd⟩ := hlost.asleep
  rcases h d hd with htaken | ⟨e, he⟩
  · exact htaken hlost.released
  · rw [hlost.unwoken e] at he
    cases he

theorem lost_of_not_sleepsCovered {l : Label} (hc : ¬SleepsCovered s l)
    (hstep : step cfg s l = some t) : Lost t := by
  cases l with
  | take d req => exact absurd trivial hc
  | run d env =>
    simp only [SleepsCovered, Classical.not_imp] at hc
    obtain ⟨hretest, hws, hmem, hcov⟩ := hc
    obtain ⟨req, hpc⟩ : ∃ req, s.pc d = .write req .waitRetest := by
      cases hpc : s.pc d with
      | write req pc =>
        rw [hpc] at hretest
        cases pc <;> first | exact ⟨req, rfl⟩ | cases hretest
      | _ => rw [hpc] at hretest; cases hretest
    have ht : t = s.goto d (.write req .asleep) := by
      rw [Dom0.step, State.threadStep, hpc] at hstep
      simp only [State.writeStep, hws, Bool.false_eq_true, if_false] at hstep
      exact (Option.some.inj hstep).symm
    subst ht
    have hwting : s.wtingDomuId = none := by
      by_contra htaken
      exact hcov (.inl htaken)
    refine ⟨hwting, hws, ⟨d, ?_, hmem⟩, fun e => ?_⟩
    · rw [goto_pc_self]
      rfl
    · rcases eq_or_ne e d with rfl | hne
      · rw [goto_pc_self]
        rfl
      · rw [goto_pc_of_ne _ _ _ hne, Bool.eq_false_iff]
        exact fun he => hcov (.inr ⟨e, he⟩)

end

/-! ## Sessions that end in sight of the waiters -/

/-- It has found the device taken, or has just taken it. -/
def Pc.found : Pc → Bool
  | .write _ .ownTest | .write _ .clearWs => true
  | _ => false

/-- It has found the device taken and is not on the queue yet. -/
def Pc.deciding : Pc → Bool
  | .write _ .unlockWait | .write _ .waitTest | .write _ .prepare => true
  | pc => pc.found

def Pc.waits : Pc → Bool
  | .write _ .waitRetest | .write _ .asleep => true
  | pc => pc.deciding

def Pc.atWake : Pc → Bool
  | .read _ .wake => true
  | _ => false

def Pc.atRelease : Pc → Bool
  | .read _ .release => true
  | _ => false

/-- The thread of `d` is going to wait and no wake-up of the queue reaches it. -/
def State.Astray (s : State) (d : Dom) : Prop :=
  (s.pc d).deciding ∨ ((s.pc d).waits ∧ d ∉ s.writePdmaWq)

/-- A session ends only while no other thread is astray or has a wake-up to do. -/
def EndsSeen (s : State) : Label → Prop
  | .take _ _ => True
  | .run d _ => (s.pc d).atRelease → ∀ e, e ≠ d → ¬s.Astray e ∧ (s.pc e).waking = false

def State.Free (s : State) : Prop := s.wtingDomuId = none ∧ s.writePdmaWs = false

/-- While the device is free the waiters are on the queue and somebody is going to look
at it. -/
structure Heard (s : State) : Prop where
  found : s.wtingDomuId = none → ∀ e, (s.pc e).found = false
  astray : s.Free → ∀ e, ¬s.Astray e
  queued : s.Free → ∀ e, (s.pc e).waits → ∃ f, (s.pc f).waking
  atWake : s.Free → ∀ e, (s.pc e).atWake = false

section
variable {cfg : Config} {s s₁ t : State} {d : Dom}

theorem Heard.of_taken (h : s.wtingDomuId ≠ none) : Heard s where
  found hnone := absurd hnone h
  astray hfree := absurd hfree.1 h
  queued hfree := absurd hfree.1 h
  atWake hfree := absurd hfree.1 h

theorem Heard.of_signalled (hws : s.writePdmaWs = true) (hfound : ∀ e, (s.pc e).found = false) :
    Heard s where
  found _ := hfound
  astray hfree := absurd hfree.2 (by simp [hws])
  queued hfree := absurd hfree.2 (by simp [hws])
  atWake hfree := absurd hfree.2 (by simp [hws])

theorem Heard.goto (h : Heard s) (hs : Alike s s₁) {pc : Pc} (hfound : pc.found = false)
    (hdec : pc.deciding = false) (hwaits : pc.waits → (s.pc d).waits ∧ d ∈ s.writePdmaWq)
    (hwake : pc.atWake = false) (hwakes : (s.pc d).waking → pc.waking) :
    Heard (s₁.goto d pc) := by
  have hother : ∀ e, e ≠ d → (s₁.goto d pc).pc e = s.pc e := fun e he => by
    rw [goto_pc_of_ne _ _ _ he, hs.pc]
  have hfree : (s₁.goto d pc).Free → s.Free := fun hf => ⟨hs.wting ▸ hf.1, hs.ws ▸ hf.2⟩
  refine ⟨fun hnone e => ?_, fun hf e => ?_, fun hf e hwait => ?_, fun hf e => ?_⟩
  · rcases eq_or_ne e d with rfl | he
    · rw [goto_pc_self, hfound]
    · rw [hother e he]
      exact h.found (hs.wting ▸ hnone) e
  · rw [State.Astray, goto_writePdmaWq, hs.wq]
    rcases eq_or_ne e d with rfl | he
    · rw [goto_pc_self, hdec]
      rintro (hfalse | ⟨hwait, hmem⟩)
      · cases hfalse
      · exact hmem (hwaits hwait).2
    · rw [hother e he]
      exact h.astray (hfree hf) e
  · have hold : (s.pc e).waits := by
      rcases eq_or_ne e d with rfl | he
      · rw [goto_pc_self] at hwait
        exact (hwaits hwait).1
      · rwa [hother e he] at hwait
    obtain ⟨f, hwaking⟩ := h.queued (hfree hf) e hold
    rcases eq_or_ne f d with rfl | hne
    · exact ⟨f, by rw [goto_pc_self]; exact hwakes hwaking⟩
    · exact ⟨f, by rw [hother f hne]; exact hwaking⟩
  · rcases eq_or_ne e d with rfl | he
    · rw [goto_pc_self, hwake]
    · rw [hother e he]
      exact h.atWake (hfree hf) e

theorem Heard.goto_of_not_free (h : Heard s) {pc : Pc} (hpc : s₁.pc = s.pc)
    (hwting : s₁.wtingDomuId = s.wtingDomuId) (hws : s₁.writePdmaWs = s.writePdmaWs)
    (hnot : ¬s.Free) (hfound : pc.found = false) : Heard (s₁.goto d pc) := by
  by_cases hnone : s.wtingDomuId = none
  · refine .of_signalled ?_ fun e => ?_
    · rw [goto_writePdmaWs, hws]
      simpa [State.Free, hnone] using hnot
    · rcases eq_or_ne e d with rfl | he
      · rw [goto_pc_self, hfound]
      · rw [goto_pc_of_ne _ _ _ he, hpc]
        exact h.found hnone e
  · exact .of_taken (by rwa [goto_wtingDomuId, hwting])

theorem deciding_of_found {pc : Pc} (h : pc.found) : pc.deciding := by
  unfold Pc.deciding
  split <;> first | rfl | exact h

theorem waits_of_deciding {pc : Pc} (h : pc.deciding) : pc.waits := by
  unfold Pc.waits
  split <;> first | rfl | exact h

theorem Heard.move (h : Heard s) (hs : Alike s s₁) {pc : Pc} (hwaits : pc.waits = false)
    (hwake : pc.atWake = false) (hwakes : (s.pc d).waking → pc.waking) :
    Heard (s₁.goto d pc) := by
  have hdec : pc.deciding = false := by
    rw [Bool.eq_false_iff]
    intro hdec
    rw [waits_of_deciding hdec] at hwaits
    cases hwaits
  have hfound : pc.found = false := by
    rw [Bool.eq_false_iff]
    intro hfound
    rw [deciding_of_found hfound] at hdec
    cases hdec
  exact h.goto hs hfound hdec (by simp [hwaits]) hwake hwakes

theorem Heard.call (h : Heard s) {pc : Pc} (o : DevOp) (hwaits : pc.waits = false)
    (hwake : pc.atWake = false) (hwakes : (s.pc d).waking = false) : Heard (s.call d o pc) := by
  unfold State.call
  split
  · exact h.move {} hwaits hwake (by simp [hwakes])
  · exact h.move {} rfl rfl (by simp [hwakes])

theorem Heard.lockThen (h : Heard s) {pc : Pc} (hwaits : pc.waits = false)
    (hwake : pc.atWake = false) (hwakes : (s.pc d).waking = false) :
    Heard (s.lockThen d pc) := by
  unfold State.lockThen
  split
  · exact h.move {} hwaits hwake (by simp [hwakes])
  · exact h

theorem Heard.taken (h : Heard s) (hfound : (s.pc d).found) : s.wtingDomuId ≠ none := by
  intro hnone
  rw [h.found hnone d] at hfound
  cases hfound

theorem Heard.not_free (h : Heard s) (hastray : s.Astray d) : ¬s.Free :=
  fun hfree => h.astray hfree d hastray

theorem waking_of_atWake {pc : Pc} (h : pc.atWake) : pc.waking := by
  unfold Pc.atWake at h
  split at h
  · rfl
  · cases h

theorem Heard.of_nobody (h : ∀ e, (s.pc e).waits = false ∧ (s.pc e).atWake = false) : Heard s where
  found _ e := by
    rw [Bool.eq_false_iff]
    intro hfound
    have hwaits := waits_of_deciding (deciding_of_found hfound)
    rw [(h e).1] at hwaits
    cases hwaits
  astray _ e := by
    rintro (hdec | ⟨hwaits, -⟩)
    · have hwaits := waits_of_deciding hdec
      rw [(h e).1] at hwaits
      cases hwaits
    · rw [(h e).1] at hwaits
      cases hwaits
  queued _ e hwaits := by
    rw [(h e).1] at hwaits
    cases hwaits
  atWake _ e := (h e).2

theorem Heard.release {req : Request}
    (hothers : ∀ e, e ≠ d → ¬s.Astray e ∧ (s.pc e).waking = false) :
    Heard ({ s with wtingDomuId := none }.goto d (.read req .active)) := by
  refine ⟨fun _ e => ?_, fun _ e => ?_, fun _ _ _ => ⟨d, ?_⟩, fun _ e => ?_⟩
  · rcases eq_or_ne e d with rfl | he
    · rw [goto_pc_self]
      rfl
    · rw [goto_pc_of_ne _ _ _ he, Bool.eq_false_iff]
      exact fun hfound => (hothers e he).1 (.inl (deciding_of_found hfound))
  · rcases eq_or_ne e d with rfl | he
    · rw [State.Astray, goto_pc_self]
      rintro (hdec | ⟨hwaits, -⟩)
      · cases hdec
      · cases hwaits
    · rw [State.Astray, goto_pc_of_ne _ _ _ he]
      exact (hothers e he).1
  · rw [goto_pc_self]
    rfl
  · rcases eq_or_ne e d with rfl | he
    · rw [goto_pc_self]
      rfl
    · rw [goto_pc_of_ne _ _ _ he, Bool.eq_false_iff]
      intro hwake
      have hwaking := (hothers e he).2
      rw [waking_of_atWake hwake] at hwaking
      cases hwaking

theorem Heard.writeStep (h : Heard s) (env : Env) {req : Request} {pc : WritePc}
    (hpc : s.pc d = .write req pc) : Heard (s.writeStep cfg d env req pc) := by
  have hwakes : (s.pc d).waking = false := by rw [hpc]; rfl
  have hno : ∀ {b : Prop}, (s.pc d).waking → b := fun hw => absurd hw (by simp [hwakes])
  cases pc with
  | lock => exact h.lockThen rfl rfl hwakes
  | ownerTest =>
    by_cases hnone : s.wtingDomuId = none
    · simp only [State.writeStep, hnone, if_true]
      exact h.move {} rfl rfl hno
    · exact .of_taken hnone
  | claim => exact .of_taken (Option.some_ne_none d)
  | ownTest | clearWs => exact .of_taken (h.taken (by rw [hpc]; rfl))
  | unlockWait => exact h.goto_of_not_free rfl rfl rfl (h.not_free (.inl (by rw [hpc]; rfl))) rfl
  | waitTest =>
    refine h.goto_of_not_free rfl rfl rfl (h.not_free (.inl (by rw [hpc]; rfl))) ?_
    split <;> rfl
  | prepare => exact h.goto_of_not_free rfl rfl rfl (h.not_free (.inl (by rw [hpc]; rfl))) rfl
  | waitRetest =>
    have hwaits : (s.pc d).waits := by rw [hpc]; rfl
    simp only [State.writeStep]
    split
    · next hws => exact h.goto_of_not_free rfl rfl rfl (fun hfree => by simp [hfree.2] at hws) rfl
    · by_cases hfree : s.Free
      · have hmem : d ∈ s.writePdmaWq := by
          by_contra hmem
          exact h.astray hfree d (.inr ⟨hwaits, hmem⟩)
        exact h.goto {} rfl rfl (fun _ => ⟨hwaits, hmem⟩) rfl hno
      · exact h.goto_of_not_free rfl rfl rfl hfree rfl
  | asleep =>
    simp only [State.writeStep]
    split
    · exact h
    · next hmem =>
      exact h.goto_of_not_free rfl rfl rfl (h.not_free (.inr ⟨by rw [hpc]; rfl, hmem⟩)) rfl
  | takeOver => exact .of_taken (Option.some_ne_none d)
  | resetTest | lenTest | finish =>
    refine h.move {} ?_ ?_ hno
    all_goals split <;> rfl
  | block =>
    refine h.call _ ?_ ?_ hwakes
    all_goals split <;> rfl
  | reset | lenReg => exact h.call _ rfl rfl hwakes
  | account | respond | clear | unlock => exact h.move {} rfl rfl hno

theorem Heard.readStep (h : Heard s) (env : Env) {req : Request} {pc : ReadPc}
    (hpc : s.pc d = .read req pc) (hc : EndsSeen s (.run d env)) :
    Heard (s.readStep cfg d env req pc) := by
  cases pc with
  | regTest =>
    refine h.move {} ?_ ?_ (by rw [hpc]; nofun)
    all_goals split <;> rfl
  | reg => exact h.call _ rfl rfl (by rw [hpc]; rfl)
  | block val =>
    refine h.call _ ?_ ?_ (by rw [hpc]; rfl)
    all_goals split <;> rfl
  | respond val => exact h.move {} rfl rfl (by rw [hpc]; nofun)
  | account val => exact h.move {} rfl rfl (by rw [hpc]; nofun)
  | finish val =>
    refine h.move {} ?_ ?_ (by rw [hpc]; nofun)
    all_goals split <;> rfl
  | clear => exact h.move {} rfl rfl fun _ => rfl
  | release => exact .release (hc (by rw [hpc]; rfl))
  | active =>
    simp only [State.readStep]
    split
    · next hnil =>
      by_cases hfree : s.Free
      · refine .of_nobody fun e => ?_
        rcases eq_or_ne e d with rfl | he
        · rw [goto_pc_self]
          exact ⟨rfl, rfl⟩
        · rw [goto_pc_of_ne _ _ _ he]
          refine ⟨?_, h.atWake hfree e⟩
          rw [Bool.eq_false_iff]
          exact fun hwaits => h.astray hfree e (.inr ⟨hwaits, by simp [hnil]⟩)
      · exact h.goto_of_not_free rfl rfl rfl hfree rfl
    · exact h.move {} rfl rfl fun _ => rfl
  | setWs =>
    by_cases hnone : s.wtingDomuId = none
    · refine .of_signalled rfl fun e => ?_
      rcases eq_or_ne e d with rfl | he
      · rw [State.readStep, goto_pc_self]
        rfl
      · rw [State.readStep, goto_pc_of_ne _ _ _ he]
        exact h.found hnone e
    · exact .of_taken hnone
  | wake =>
    refine h.goto_of_not_free rfl rfl rfl (fun hfree => ?_) rfl
    have hwake := h.atWake hfree d
    rw [hpc] at hwake
    cases hwake
  | reset => exact h.call _ rfl rfl (by rw [hpc]; rfl)

theorem Heard.threadStep (h : Heard s) (env : Env) (hc : EndsSeen s (.run d env)) :
    Heard (s.threadStep cfg d env) := by
  unfold State.threadStep
  cases hpc : s.pc d with
  | idle | dead => exact h
  | openCount req | closeCount req =>
    refine h.move {} ?_ ?_ (by rw [hpc]; nofun)
    all_goals split <;> rfl
  | write req pc => exact h.writeStep env hpc
  | read req pc => exact h.readStep env hpc hc
  | ioctlLock req => exact h.lockThen rfl rfl (by rw [hpc]; rfl)
  | ioctlStat req => exact h.call _ rfl rfl (by rw [hpc]; rfl)
  | openFile req | closeFile req | ioctlRespond req | ioctlUnlock | respond req =>
    exact h.move {} rfl rfl (by rw [hpc]; nofun)

theorem Heard.step (h : Heard s) {l : Label} (hc : EndsSeen s l)
    (hstep : step cfg s l = some t) : Heard t := by
  cases l with
  | take d req =>
    cases hstep
    unfold State.takeStep
    split
    · next hpc =>
      refine h.move {} ?_ ?_ (by rw [hpc]; nofun)
      all_goals
        unfold State.begin
        split <;> rfl
    · exact h
  | run d env =>
    cases hstep
    exact h.threadStep env hc

theorem Heard.sleepsCovered (h : Heard s) (l : Label) : SleepsCovered s l := by
  cases l with
  | take d req => trivial
  | run d env =>
    intro hretest hws _
    by_cases hnone : s.wtingDomuId = none
    · refine .inr (h.queued ⟨hnone, hws⟩ d ?_)
      unfold Pc.retesting at hretest
      split at hretest
      · next hpc =>
        rw [hpc]
        rfl
      · cases hretest
    · exact .inl hnone

end

/-- Nobody falls asleep uncovered in the runs whose sessions end in sight of the waiters. -/
theorem sleepsCovered_of_endsSeen {cfg : Config} {ls : List Label}
    (h : Along (step cfg) EndsSeen {} ls) : Along (step cfg) SleepsCovered {} ls :=
  along_of_invariant (I := Heard) (fun h hc hstep => h.step hc hstep)
    (fun h _ => h.sleepsCovered _) (.of_nobody fun _ => ⟨rfl, rfl⟩) h

/-- No wake-up is lost exactly in the runs in which nobody falls asleep uncovered. -/
theorem no_lost_session_wakeup (cfg : Config) (ls : List Label) :
    Along (step cfg) SleepsCovered {} ls ↔
      ∀ ms, ms <+: ls → ∀ t, exec (step cfg) {} ms = some t → ¬Lost t :=
  along_iff_never (I := Watched) (step_total cfg) (fun h hc hstep => h.step hc hstep)
    (fun h => h.not_lost) (fun _ => lost_of_not_sleepsCovered) (Watched.of_nil rfl)

def endsBeforeWait : List Label :=
  serve 1 .opOpen 0 3 {} ++ serve 1 .write 8 14 {} ++ serve 2 .write 8 3 {} ++
    serve 1 .read 0 10 { reg := some 8 } ++ List.replicate 5 (.run 2 {})

theorem session_wakeup_lost :
    ∃ t, exec (step ⟨4096⟩) {} endsBeforeWait = some t ∧ Lost t := by
  refine exists_end_view _ (fun t => (t.wtingDomuId, t.writePdmaWs, t.writePdmaWq, t.pc 1, t.pc 2))
    (v := (none, false, [2], .idle, .write ⟨0, .write, 0, 8⟩ .asleep)) (by decide +kernel)
    fun t hrun hv => ?_
  simp only [Prod.mk.injEq] at hv
  obtain ⟨hwting, hws, hwq, hone, htwo⟩ := hv
  refine ⟨hwting, hws, ⟨2, by rw [htwo]; rfl, by rw [hwq]; simp⟩, fun e => ?_⟩
  by_cases h1 : e = 1
  · rw [h1, hone]
    rfl
  by_cases h2 : e = 2
  · rw [h2, htwo]
    rfl
  have hdoms : ∀ l ∈ endsBeforeWait, l.dom = 1 ∨ l.dom = 2 := by decide
  rw [exec_pc_of_ne hrun fun l hl he => (hdoms l hl).elim (fun h => h1 (he.trans h))
    fun h => h2 (he.trans h)]
  rfl

end PdmaXen.Dom0
