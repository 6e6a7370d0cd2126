import Mathlib.Logic.Function.Basic
import PdmaXen.Machine

/-!
# The address limit around the calls of the device

`pdma_write`, `pdma_read`, `pdma_ioctl_op` and the four socket functions save the
address limit of the current thread in the one global `old_fs`, raise it, make their
call and restore it. An interrupt runs on the thread it interrupts.
-/

namespace PdmaXen.NetDom0.AddressLimit
set_option autoImplicit false
open Machine

inductive Segment where
  | userDs
  | kernelDs
  deriving DecidableEq, Repr

/-- A thread of the machine: threads of the module, or any thread an interrupt runs on. -/
abbrev Task := Nat

inductive Operation where
  | pdmaWrite
  | pdmaRead
  | pdmaIoctlOp
  | recvmsg
  | sendmsg
  deriving DecidableEq, Repr

/-- What is done next: `old_fs = get_fs()`, `set_fs(get_ds())`, the call, `set_fs(old_fs)`. -/
inductive CallPc where
  | save
  | raise
  | call
  | restore
  deriving DecidableEq, Repr

/-- A call under way; `before` is history. -/
structure Frame where
  operation : Operation
  pc : CallPc
  before : Segment
  deriving DecidableEq, Repr

structure Returned where
  task : Task
  operation : Operation
  before : Segment
  after : Segment
  deriving DecidableEq, Repr

/-- `frames` are the calls under way on each thread, the innermost first; `returned` is history. -/
structure State where
  oldFs : Segment
  limit : Task → Segment
  frames : Task → List Frame
  returned : List Returned

namespace State

def setFrames (s : State) (t : Task) (fs : List Frame) : State :=
  { s with frames := Function.update s.frames t fs }

def setFs (s : State) (t : Task) (l : Segment) : State :=
  { s with limit := Function.update s.limit t l }

def callStep (s : State) (t : Task) (f : Frame) (fs : List Frame) : State :=
  match f.pc with
  | .save => { s with oldFs := s.limit t }.setFrames t ({ f with pc := .raise } :: fs)
  | .raise => (s.setFs t .kernelDs).setFrames t ({ f with pc := .call } :: fs)
  | .call => s.setFrames t ({ f with pc := .restore } :: fs)
  | .restore =>
    { s.setFs t s.oldFs with returned := ⟨t, f.operation, f.before, s.oldFs⟩ :: s.returned }.setFrames
      t fs

end State

/-- A call begins on a thread, in the thread itself or in an interrupt on it; or the innermost call
of a thread goes on. -/
inductive Label where
  | enter (t : Task) (operation : Operation)
  | run (t : Task)
  deriving DecidableEq, Repr

/-- A thread without a call makes a step that changes nothing. -/
def step (s : State) : Label → Option State
  | .enter t operation => some (s.setFrames t (⟨operation, .save, s.limit t⟩ :: s.frames t))
  | .run t =>
    match s.frames t with
    | [] => some s
    | f :: fs => some (s.callStep t f fs)

theorem step_total (s : State) (l : Label) : ∃ t, step s l = some t := by
  cases l with
  | enter t operation => exact ⟨_, rfl⟩
  | run t =>
    simp only [step]
    split <;> exact ⟨_, rfl⟩

def Quiet (s : State) : Prop := (∀ t, s.frames t = []) ∧ s.returned = []

def Restored (s : State) : Prop := ∀ r ∈ s.returned, r.after = r.before

/-- Between its `old_fs = get_fs()` and its `set_fs(old_fs)`. -/
def Frame.Pending (f : Frame) : Prop := f.pc ≠ .save

instance (f : Frame) : Decidable f.Pending := inferInstanceAs (Decidable (_ ≠ _))

/-- While a call stands between its save and its restore, nobody saves another limit than the one
`old_fs` holds. -/
def SavesAlone (s : State) : Label → Prop
  | .enter _ _ => True
  | .run t => ∀ f fs, s.frames t = f :: fs → f.pc = .save →
    (∃ t', ∃ g ∈ s.frames t', g.Pending) → s.limit t = s.oldFs

/-! ## The limits of the calls under way -/

def Frame.now (f : Frame) : Segment :=
  match f.pc with
  | .save | .raise => f.before
  | .call | .restore => .kernelDs

/-- Each call began with the limit that the one around it had set. -/
def Nested : Segment → List Frame → Prop
  | _, [] => True
  | l, f :: fs => l = f.now ∧ Nested f.before fs

/-- `old_fs` still holds what every pending call saved. -/
structure Kept (s : State) : Prop where
  nested : ∀ t, Nested (s.limit t) (s.frames t)
  kept : ∀ t, ∀ f ∈ s.frames t, f.Pending → f.before = s.oldFs
  restored : Restored s

section
variable {s u : State} {t : Task} {f : Frame} {fs : List Frame}

/-- A step on one thread that leaves its limits nested and its pending calls with what they saved
keeps both for all threads. -/
theorem kept_of_task (h : Kept s) {s' : State}
    (hlimit : ∀ t', t' ≠ t → s'.limit t' = s.limit t')
    (hframes : ∀ t', t' ≠ t → s'.frames t' = s.frames t')
    (hold : (∃ t', ∃ g ∈ s.frames t', g.Pending) → s'.oldFs = s.oldFs)
    (hnested : Nested (s'.limit t) (s'.frames t))
    (hkept : ∀ g ∈ s'.frames t, g.Pending → g.before = s'.oldFs)
    (hrestored : Restored s') : Kept s' := by
  refine ⟨?_, ?_, hrestored⟩
  · intro t'
    by_cases ht : t' = t
    · rw [ht]
      exact hnested
    · rw [hlimit t' ht, hframes t' ht]
      exact h.nested t'
  · intro t' g hg hpending
    by_cases ht : t' = t
    · rw [ht] at hg
      exact hkept g hg hpending
    · rw [hframes t' ht] at hg
      rw [hold ⟨t', g, hg, hpending⟩]
      exact h.kept t' g hg hpending

theorem kept_enter (h : Kept s) (t : Task) (operation : Operation) :
    Kept (s.setFrames t (⟨operation, .save, s.limit t⟩ :: s.frames t)) := by
  apply kept_of_task (t := t) h
  · intro t' _
    rfl
  · intro t' ht
    exact Function.update_of_ne ht _ _
  · intro _
    rfl
  · simp only [State.setFrames, Function.update_self]
    exact ⟨rfl, h.nested t⟩
  · intro g hg hpending
    simp only [State.setFrames, Function.update_self] at hg ⊢
    rcases List.mem_cons.mp hg with heq | hmem
    · subst heq
      exact absurd rfl hpending
    · exact h.kept t g hmem hpending
  · exact h.restored

theorem kept_callStep (h : Kept s) (hf : s.frames t = f :: fs)
    (hsave : f.pc = .save → (∃ t', ∃ g ∈ s.frames t', g.Pending) → s.limit t = s.oldFs) :
    Kept (s.callStep t f fs) := by
  have hnested := h.nested t
  rw [hf] at hnested
  obtain ⟨hlimit, hrest⟩ := hnested
  have hkept : ∀ g ∈ f :: fs, g.Pending → g.before = s.oldFs := by
    rw [← hf]
    exact h.kept t
  cases hpc : f.pc with
  | save =>
    have hbefore : s.limit t = f.before := by rw [hlimit, Frame.now, hpc]
    have hold : (∃ t', ∃ g ∈ s.frames t', g.Pending) → s.limit t = s.oldFs := hsave hpc
    simp only [State.callStep, hpc]
    apply kept_of_task (t := t) h
    · intro t' _
      rfl
    · intro t' ht
      exact Function.update_of_ne ht _ _
    · exact hold
    · simp only [State.setFrames, Function.update_self]
      exact ⟨hbefore, hrest⟩
    · intro g hg hpending
      simp only [State.setFrames, Function.update_self] at hg ⊢
      rcases List.mem_cons.mp hg with heq | hmem
      · subst heq
        exact hbefore.symm
      · rw [hold ⟨t, g, by rw [hf]; exact List.mem_cons_of_mem f hmem, hpending⟩]
        exact hkept g (List.mem_cons_of_mem f hmem) hpending
    · exact h.restored
  | raise =>
    simp only [State.callStep, hpc]
    apply kept_of_task (t := t) h
    · intro t' ht
      exact Function.update_of_ne ht _ _
    · intro t' ht
      exact Function.update_of_ne ht _ _
    · intro _
      rfl
    · simp only [State.setFrames, State.setFs, Function.update_self]
      exact ⟨rfl, hrest⟩
    · intro g hg hpending
      simp only [State.setFrames, State.setFs, Function.update_self] at hg ⊢
      rcases List.mem_cons.mp hg with heq | hmem
      · subst heq
        exact hkept f List.mem_cons_self (by rw [Frame.Pending, hpc]; decide)
      · exact hkept g (List.mem_cons_of_mem f hmem) hpending
    · exact h.restored
  | call =>
    simp only [State.callStep, hpc]
    apply kept_of_task (t := t) h
    · intro t' _
      rfl
    · intro t' ht
      exact Function.update_of_ne ht _ _
    · intro _
      rfl
    · simp only [State.setFrames, Function.update_self]
      refine ⟨?_, hrest⟩
      rw [hlimit, Frame.now, hpc]
      rfl
    · intro g hg hpending
      simp only [State.setFrames, Function.update_self] at hg ⊢
      rcases List.mem_cons.mp hg with heq | hmem
      · subst heq
        exact hkept f List.mem_cons_self (by rw [Frame.Pending, hpc]; decide)
      · exact hkept g (List.mem_cons_of_mem f hmem) hpending
    · exact h.restored
  | restore =>
    have hbefore : f.before = s.oldFs :=
      hkept f List.mem_cons_self (by rw [Frame.Pending, hpc]; decide)
    simp only [State.callStep, hpc]
    apply kept_of_task (t := t) h
    · intro t' ht
      exact Function.update_of_ne ht _ _
    · intro t' ht
      exact Function.update_of_ne ht _ _
    · intro _
      rfl
    · simp only [State.setFrames, State.setFs, Function.update_self]
      rw [← hbefore]
      exact hrest
    · intro g hg hpending
      simp only [State.setFrames, State.setFs, Function.update_self] at hg ⊢
      exact hkept g (List.mem_cons_of_mem f hg) hpending
    · intro r hr
      simp only [State.setFrames, State.setFs, List.mem_cons] at hr
      rcases hr with heq | hmem
      · subst heq
        exact hbefore.symm
      · exact h.restored r hmem

theorem kept_step {l : Label} (h : Kept s) (hl : SavesAlone s l) (hstep : step s l = some u) :
    Kept u := by
  cases l with
  | enter t operation =>
    cases hstep
    exact kept_enter h t operation
  | run t =>
    simp only [step] at hstep
    split at hstep
    · cases hstep
      exact h
    · next f fs hf =>
      cases hstep
      exact kept_callStep h hf fun hpc => hl f fs hf hpc

theorem kept_of_quiet (h : Quiet s) : Kept s := by
  refine ⟨?_, ?_, ?_⟩
  · intro t
    rw [h.1 t]
    trivial
  · intro t f hf
    rw [h.1 t] at hf
    cases hf
  · intro r hr
    rw [h.2] at hr
    cases hr

/-- A save over another limit that is still needed: `old_fs` no longer holds what a pending call
saved. -/
theorem not_kept_of_overwrite {l : Label} (h : Kept s) (hl : ¬ SavesAlone s l)
    (hstep : step s l = some u) : ¬ Kept u := by
  intro hu
  cases l with
  | enter t operation => exact hl trivial
  | run t =>
    simp only [SavesAlone, Classical.not_forall] at hl
    obtain ⟨f, fs, hf, hpc, ⟨t', g, hg, hpending⟩, hne⟩ := hl
    simp only [step, hf, State.callStep, hpc, Option.some.injEq] at hstep
    have hgu : g ∈ u.frames t' := by
      rw [← hstep]
      by_cases ht : t' = t
      · subst ht
        simp only [State.setFrames, Function.update_self]
        rw [hf] at hg
        rcases List.mem_cons.mp hg with heq | hmem
        · subst heq
          exact absurd hpc hpending
        · exact List.mem_cons_of_mem _ hmem
      · simp only [State.setFrames, Function.update_of_ne ht]
        exact hg
    have hold : u.oldFs = s.limit t := by
      rw [← hstep]
      rfl
    exact hne ((hold.symm.trans (hu.kept t' g hgu hpending).symm).trans (h.kept t' g hg hpending))

end

/-- The condition is exactly that no run loses what a pending call has saved. -/
theorem savesAlone_iff_kept {s : State} (hs : Quiet s) {ls : List Label} :
    Along step SavesAlone s ls ↔ ∀ ms, ms <+: ls → ∀ u, exec step s ms = some u → Kept u :=
  along_iff_always step_total kept_step id not_kept_of_overwrite (kept_of_quiet hs)

/-- Every caller gets its address limit back in every run in which no save takes the place of
another limit that a pending call still needs. -/
theorem limit_restored {s u : State} {ls : List Label} (hs : Quiet s)
    (hls : Along step SavesAlone s ls) (hrun : exec step s ls = some u) : Restored u :=
  (invariant_along kept_step (kept_of_quiet hs) hls hrun).restored

/-- Thread 0 was interrupted in user mode, thread 1 is a kernel thread of the module. -/
def quiet : State where
  oldFs := .userDs
  limit := fun t => if t = 0 then .userDs else .kernelDs
  frames := fun _ => []
  returned := []

theorem limit_restored_one_call :
    ∃ u, exec step quiet [.enter 0 .pdmaIoctlOp, .run 0, .run 0, .run 0, .run 0] = some u ∧
      Restored u := by
  have hother : ∀ (s : State) (f : Frame), s.frames 0 = [f] → f.pc ≠ .save →
      SavesAlone s (.run 0) := by
    intro s f hf hpc g gs hg hsave
    rw [hf] at hg
    cases hg
    exact absurd hsave hpc
  have halone : Along step SavesAlone quiet
      [.enter 0 .pdmaIoctlOp, .run 0, .run 0, .run 0, .run 0] := by
    apply Along.cons rfl trivial
    apply Along.cons rfl (fun _ _ _ _ _ => rfl)
    apply Along.cons rfl (hother _ _ rfl (by decide))
    apply Along.cons rfl (hother _ _ rfl (by decide))
    exact Along.cons rfl (hother _ _ rfl (by decide)) trivial
  exact ⟨_, rfl, limit_restored ⟨fun _ => rfl, rfl⟩ halone rfl⟩

/-- An IOCTL request in an interrupt on a user thread, while a thread of the module is between the
save and the restore of its own call. -/
theorem limit_lost_in_overlap :
    ¬ ∀ (s u : State) (ls : List Label), Quiet s → exec step s ls = some u → Restored u := by
  intro h
  have hrun : exec step quiet [.enter 0 .pdmaIoctlOp, .run 0, .run 0, .enter 1 .pdmaWrite, .run 1,
      .run 0, .run 0] = some _ := rfl
  have hlost := h quiet _ _ ⟨fun _ => rfl, rfl⟩ hrun ⟨0, .pdmaIoctlOp, .userDs, .kernelDs⟩
    List.mem_cons_self
  cases hlost

end PdmaXen.NetDom0.AddressLimit
