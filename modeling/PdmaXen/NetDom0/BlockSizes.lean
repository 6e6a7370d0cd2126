import PdmaXen.NetDom0.Startup

/-!
# The block sizes

The first probe asks the device for the block sizes, every probe copies what is known
by then, and the threads divide by the copies and by the original.
-/

namespace PdmaXen.NetDom0.Startup
set_option autoImplicit false
open Machine

/-- The device has told a size other than 0 before the place the divisor is taken from
was filled: the `chrif` of the front end, or `pdma_info` itself. -/
def Divisor.Informed (s : State) : Divisor → Prop
  | .writeResp d => ∃ info left, s.probes d = .probed info (some left) ∧ left.wtBlockSz ≠ 0
  | .readData d => ∃ info left, s.probes d = .probed info (some left) ∧ left.rdBlockSz ≠ 0
  | .remote => ∃ left, s.answered = some left ∧ left.wtBlockSz ≠ 0

/-- A step that divides finds its divisor informed. -/
def DividesInformed (env : Env) (s : State) : Step → Prop
  | .run l => ∀ v, s.divides env l = some v → v.Informed s
  | _ => True

/-- What is left of the 0 that `pdma_info` starts with. -/
def known (answered : Option PdmaInfo) : PdmaInfo := answered.getD ⟨0, 0⟩

/-- `pdma_info` and its copies are what `get_pdma_info` had left last. -/
structure Known (s : State) : Prop where
  pdmaInfo : s.pdmaInfo = known s.answered
  chrif : ∀ d info answered, s.probes d = .probed info answered → info = known answered

variable {env : Env} {s t : State}

theorem Known.start : Known start := by
  constructor
  · rfl
  · intro d info answered h
    cases h

theorem Known.of_eq (h : Known s) (hinfo : t.pdmaInfo = s.pdmaInfo)
    (hanswered : t.answered = s.answered) (hprobes : t.probes = s.probes) : Known t := by
  constructor
  · rw [hinfo, hanswered, h.pdmaInfo]
  · intro d info answered hd
    rw [hprobes] at hd
    exact h.chrif d info answered hd

theorem Known.setProbe (h : Known s) (d : Dom) {pc : ProbePc}
    (hpc : ∀ info answered, pc = .probed info answered → info = known answered) :
    Known (s.setProbe d pc) := by
  constructor
  · exact h.pdmaInfo
  · intro d' info answered hd'
    by_cases hd : d' = d
    · subst hd
      rw [State.setProbe_self] at hd'
      exact hpc info answered hd'
    · rw [State.setProbe_of_ne s hd] at hd'
      exact h.chrif d' info answered hd'

structure SameSizes (s t : State) : Prop where
  pdmaInfo : t.pdmaInfo = s.pdmaInfo
  answered : t.answered = s.answered
  probes : t.probes = s.probes
  divided : t.divided = s.divided

theorem SameSizes.known (h : SameSizes s t) (hs : Known s) : Known t :=
  hs.of_eq h.pdmaInfo h.answered h.probes

theorem sameSizes_initStep (a : InitAnswer) : SameSizes s (s.initStep env a) := by
  rw [State.initStep]
  split <;> exact ⟨rfl, rfl, rfl, rfl⟩

theorem sameSizes_sockStep (ok : Bool) : SameSizes s (s.sockStep env ok) := by
  rw [State.sockStep]
  split
  · exact ⟨rfl, rfl, rfl, rfl⟩
  · split
    case h_3 => split <;> exact ⟨rfl, rfl, rfl, rfl⟩
    all_goals exact ⟨rfl, rfl, rfl, rfl⟩

theorem sameSizes_exitStep : SameSizes s s.exitStep := by
  rw [State.exitStep]
  split
  · exact ⟨rfl, rfl, rfl, rfl⟩
  · split <;> first | exact ⟨rfl, rfl, rfl, rfl⟩ | (split <;> exact ⟨rfl, rfl, rfl, rfl⟩)

theorem probeStep_divided (d : Dom) (a : InfoAnswer) :
    (s.probeStep d a).divided = s.divided := by
  rw [State.probeStep]
  split
  · rfl
  · split
    case h_3 => split <;> rfl
    all_goals rfl

theorem Known.probeStep (h : Known s) (d : Dom) (a : InfoAnswer) : Known (s.probeStep d a) := by
  rw [State.probeStep]
  split
  · exact h
  · split
    case h_1 =>
      apply h.setProbe
      intro info answered hpc
      split at hpc <;> cases hpc
    case h_2 =>
      refine (h.setProbe d fun info answered hpc => ?_).of_eq rfl rfl rfl
      split at hpc <;> cases hpc
    case h_3 =>
      split
      · have hset : Known (s.setProbe d .copying) :=
          h.setProbe d fun info answered hpc => by cases hpc
        exact ⟨rfl, hset.chrif⟩
      · exact h.setProbe d fun info answered hpc => by cases hpc
    case h_4 =>
      apply h.setProbe
      intro info answered hpc
      cases hpc
      exact h.pdmaInfo
    all_goals exact h

theorem Known.step {l : Step} (h : Known s) (hstep : step env s l = some t) : Known t := by
  cases l with
  | init a =>
    obtain rfl : s.initStep env a = t := Option.some.inj hstep
    exact (sameSizes_initStep a).known h
  | probe d a =>
    obtain rfl : s.probeStep d a = t := Option.some.inj hstep
    exact h.probeStep d a
  | sock ok =>
    obtain rfl : s.sockStep env ok = t := Option.some.inj hstep
    exact (sameSizes_sockStep ok).known h
  | run l =>
    obtain rfl : s.runStep env l = t := Option.some.inj hstep
    exact h.of_eq rfl rfl rfl
  | exit =>
    obtain rfl : s.exitStep = t := Option.some.inj hstep
    exact sameSizes_exitStep.known h

theorem known_ne_zero (size : PdmaInfo → UInt32) {answered : Option PdmaInfo}
    (hzero : size ⟨0, 0⟩ = 0) :
    size (known answered) ≠ 0 ↔ ∃ left, answered = some left ∧ size left ≠ 0 := by
  cases answered with
  | none => simp [known, hzero]
  | some left => simp [known]

theorem Known.chrifInfo_ne_zero (h : Known s) (d : Dom) (size : PdmaInfo → UInt32)
    (hzero : size ⟨0, 0⟩ = 0) :
    size (s.chrifInfo d) ≠ 0 ↔
      ∃ info left, s.probes d = .probed info (some left) ∧ size left ≠ 0 := by
  rw [State.chrifInfo]
  cases hd : s.probes d with
  | probed info answered =>
    obtain rfl := h.chrif d info answered hd
    show size (known answered) ≠ 0 ↔ _
    rw [known_ne_zero size hzero]
    constructor
    · rintro ⟨left, rfl, hleft⟩
      exact ⟨_, left, rfl, hleft⟩
    · rintro ⟨info, left, hprobed, hleft⟩
      cases hprobed
      exact ⟨left, rfl, hleft⟩
  | absent | first | asking | copying | faulted => simp [hzero]

theorem Known.size_ne_zero (h : Known s) (v : Divisor) : v.size s ≠ 0 ↔ v.Informed s := by
  cases v with
  | writeResp d => exact h.chrifInfo_ne_zero d PdmaInfo.wtBlockSz rfl
  | readData d => exact h.chrifInfo_ne_zero d PdmaInfo.rdBlockSz rfl
  | remote =>
    show s.pdmaInfo.wtBlockSz ≠ 0 ↔ _
    rw [h.pdmaInfo]
    exact known_ne_zero PdmaInfo.wtBlockSz rfl

/-- A step of a thread adds the size it divides by, no other step does. -/
theorem step_divided {l : Step} (h : Known s) (hstep : step env s l = some t) :
    (∀ z ∈ t.divided, z ≠ 0) ↔ (∀ z ∈ s.divided, z ≠ 0) ∧ DividesInformed env s l := by
  cases l with
  | init a =>
    obtain rfl : s.initStep env a = t := Option.some.inj hstep
    rw [(sameSizes_initStep a).divided]
    exact (and_iff_left trivial).symm
  | probe d a =>
    obtain rfl : s.probeStep d a = t := Option.some.inj hstep
    rw [probeStep_divided]
    exact (and_iff_left trivial).symm
  | sock ok =>
    obtain rfl : s.sockStep env ok = t := Option.some.inj hstep
    rw [(sameSizes_sockStep ok).divided]
    exact (and_iff_left trivial).symm
  | run l =>
    obtain rfl : s.runStep env l = t := Option.some.inj hstep
    show (∀ z ∈ s.divided ++ ((s.divides env l).map (Divisor.size s)).toList, z ≠ 0) ↔ _
    rw [List.forall_mem_append]
    refine and_congr Iff.rfl ?_
    cases hv : s.divides env l with
    | none => simp [DividesInformed, hv]
    | some v =>
      simp only [Option.map_some, Option.toList_some, List.mem_singleton, forall_eq,
        DividesInformed, hv, Option.some.injEq, forall_eq']
      exact h.size_ne_zero v
  | exit =>
    obtain rfl : s.exitStep = t := Option.some.inj hstep
    rw [sameSizes_exitStep.divided]
    exact (and_iff_left trivial).symm

theorem reqStep_zero_divisor {v : Divisor} (hdev : s.devOn = true)
    (hv : s.reqDivides env = some v) (hzero : v.size s = 0) :
    (s.backend.reqStep (s.config env s.reqInfo)).reqThrd = .dead := by
  have hdevOn : (s.config env s.reqInfo).devOn = true := hdev
  rw [State.reqDivides] at hv
  split at hv
  · next d r hpc =>
    cases hv
    have hsize : (s.config env s.reqInfo).info.wtBlockSz = 0 := by
      simpa [State.config, State.reqInfo, Divisor.size, hpc] using hzero
    simp [Backend.reqStep, hdevOn, hpc, Chrif.passes, hsize]
  · next d r hpc =>
    split at hv
    · cases hv
      have hsize : (s.config env s.reqInfo).info.rdBlockSz = 0 := by
        simpa [State.config, State.reqInfo, Divisor.size, hpc] using hzero
      simp [Backend.reqStep, hdevOn, hpc, Config.passesRead, hsize]
    · cases hv
  · next hpc =>
    split at hv
    · cases hv
      have hsize : (s.config env s.reqInfo).info.wtBlockSz = 0 := by
        simpa [State.config, State.reqInfo, Divisor.size, hpc] using hzero
      simp [Backend.reqStep, hdevOn, hpc, Config.passesRemote, hsize]
    · cases hv
  · cases hv

theorem conStep_zero_divisor {v : Divisor} (datagram : Bool) (hdev : s.devOn = false)
    (hv : s.conDivides = some v) (hzero : v.size s = 0) :
    (s.backend.conStep (s.config env s.conInfo) datagram).conThrd = .dead := by
  have hdevOn : (s.config env s.conInfo).devOn = false := hdev
  rw [State.conDivides] at hv
  split at hv
  · next d r hpc =>
    cases hv
    have hsize : (s.config env s.conInfo).info.wtBlockSz = 0 := by
      simpa [State.config, State.conInfo, Divisor.size, hpc] using hzero
    simp [Backend.conStep, hdevOn, hpc, Chrif.passes, hsize]
  · cases hv

/-- A thread that divides by a size of 0 ends there. -/
theorem zero_divisor_kills {l : Label} {v : Divisor} (hv : s.divides env l = some v)
    (hzero : v.size s = 0) :
    (s.next env l).reqThrd = .dead ∨ (s.next env l).conThrd = .dead := by
  cases l with
  | put d op => cases hv
  | irq d irqEnv => cases hv
  | reqthrd =>
    left
    simp only [State.divides] at hv
    split at hv
    · next hrun =>
      rw [State.next, if_neg (not_not_intro hrun.1)]
      split
      · rfl
      · exact reqStep_zero_divisor hrun.2 hv hzero
    · cases hv
  | conthrd datagram =>
    right
    simp only [State.divides] at hv
    split at hv
    · next hrun =>
      rw [State.next, if_neg (by simp [hrun.1, hrun.2.1])]
      split
      · rfl
      · split
        · rfl
        · exact conStep_zero_divisor datagram hrun.2.2 hv hzero
    · cases hv

/-- In every order of initialisation, probes, requests and exit, and whatever fails, all block
sizes divided by are positive exactly if every division comes after the device told a size
other than 0, and for a front end's request after its probe copied that. -/
theorem block_sizes_positive_iff (env : Env) (ls : List Step) :
    ∃ s, exec (step env) start ls = some s ∧
      ((∀ z ∈ s.divided, z ≠ 0) ↔ Along (step env) (DividesInformed env) start ls) := by
  obtain ⟨s, hs⟩ := exec_total (step_total env) start ls
  refine ⟨s, hs, ?_⟩
  have hiff := along_iff_of_invariant (P := fun s => ∀ z ∈ s.divided, z ≠ 0) (I := Known)
    (fun h hstep => h.step hstep) (fun h hstep => step_divided h hstep) Known.start hs
  rw [hiff]
  refine and_iff_right ?_
  intro z hz
  exact absurd hz List.not_mem_nil

def datagramFirst : List Step :=
  loaded ++ [.sock true, .sock true, .sock true, .run (.conthrd true), .run .reqthrd, .run .reqthrd]

theorem datagram_divides_by_zero :
    (exec (step ⟨8, false, 64⟩) start datagramFirst).map (fun s => s.divided) = some [0] := by
  rfl

end PdmaXen.NetDom0.Startup
