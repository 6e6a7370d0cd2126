import PdmaXen.Pdma.Flow

/-!
# `rw_cnt` counts the calls that are inside

Only a call past the gate holds a buffer, and while DMA is off nobody passes.
-/

namespace PdmaXen.Pdma
set_option autoImplicit false
open Pool

namespace Dev

/-- The calls between their `atomic_inc` and their `atomic_dec`, readers left, writers right. -/
def inside (d : Dev) : Pid ⊕ Pid → Bool
  | .inl p => (d.readers p).pc.inside
  | .inr p => (d.writers p).pc.inside

/-- Nobody is past the gate. -/
structure Quiet (d : Dev) : Prop where
  rd : ∀ p, (d.readers p).pc.passed = false
  wt : ∀ p, (d.writers p).pc.passed = false

structure EmptyHanded (d : Dev) : Prop where
  rd : ∀ p, d.rdHeld p = none
  wt : ∀ p, d.wtHeld p = none

variable {g : Geometry} {d d' : Dev} {p : Pid}

theorem Quiet.emptyHanded (h : d.Quiet) : d.EmptyHanded :=
  ⟨fun p => RdPc.held_of_not_passed (h.rd p), fun p => WtPc.held_of_not_passed (h.wt p)⟩

theorem quiet_of_counted_zero (h : Counted d.inside 0) : d.Quiet :=
  ⟨fun p => RdPc.passed_of_not_inside (h.none_of_zero (.inl p)),
    fun p => WtPc.passed_of_not_inside (h.none_of_zero (.inr p))⟩

theorem inside_wakeRdque (d : Dev) : d.wakeRdque.inside = d.inside := by
  funext x
  cases x with
  | inl p => exact RdPc.inside_mapWait ..
  | inr p => rfl

theorem inside_wakeWtque (d : Dev) : d.wakeWtque.inside = d.inside := by
  funext x
  cases x with
  | inl p => rfl
  | inr p => exact WtPc.inside_mapWait ..

theorem Quiet.wakeRdque (h : d.Quiet) : d.wakeRdque.Quiet :=
  ⟨fun p => (RdPc.passed_mapWait ..).trans (h.rd p), h.wt⟩

theorem Quiet.wakeWtque (h : d.Quiet) : d.wakeWtque.Quiet :=
  ⟨h.rd, fun p => (WtPc.passed_mapWait ..).trans (h.wt p)⟩

end Dev

open Dev

variable {g : Geometry} {d d' : Dev} {bn bn' : Bounce} {l : Label}

theorem step_counted (hl : l.isCtl = false) (hf : Fifos g d)
    (hstep : step g bn d l = some (bn', d')) (h : Counted d.inside d.rwCnt) :
    Counted d'.inside d'.rwCnt := by
  cases step_cases hstep with
  | rdCall p count nonblock hidle =>
    refine h.congr fun x => ?_
    rcases x with q | q
    · exact pc_rdCall (f := RdPc.inside) hidle rfl count nonblock q
    · rfl
  | rdStep p copyOk sig =>
    refine h.tick (x := .inl p) (rdStep_stepped g bn d p copyOk sig).next.tick fun y hy => ?_
    rcases y with q | q
    · have hq : q ≠ p := fun hq => hy (congrArg _ hq)
      simp only [inside, (rdStep_stepped g bn d p copyOk sig).others q hq]
    · obtain ⟨_, _, _, _, _, _, heq⟩ := rdStep_frame g bn d p copyOk sig
      simp only [inside, heq]
  | wtCall p count nonblock hidle =>
    refine h.congr fun x => ?_
    rcases x with q | q
    · rfl
    · exact pc_wtCall (f := WtPc.inside) hidle rfl count nonblock q
  | wtStep p copied sig =>
    refine h.tick (x := .inr p) (wtStep_stepped g d p copied sig).next.tick fun y hy => ?_
    rcases y with q | q
    · obtain ⟨_, _, _, _, _, heq⟩ := wtStep_frame g d p copied sig
      simp only [inside, heq]
    · have hq : q ≠ p := fun hq => hy (congrArg _ hq)
      simp only [inside, (wtStep_stepped g d p copied sig).others q hq]
  | isrCall p => exact h
  | isrStep p blks n _ he =>
    obtain ⟨hcnt, ⟨f, hrd⟩, f', hwt⟩ := (isrStep_move hf.rd hf.wt he).waits
    rw [hcnt]
    refine h.congr fun x => ?_
    rcases x with q | q
    · simp only [inside, hrd, RdPc.inside_mapWait]
    · simp only [inside, hwt, WtPc.inside_mapWait]
  | ctlCall | ctlStep => cases hl

theorem step_quiet (hl : l.isCtl = false) (hf : Fifos g d)
    (hstep : step g bn d l = some (bn', d')) (hoff : d.dmaEnable = false) (h : d.Quiet) :
    d'.Quiet := by
  cases step_cases hstep with
  | rdCall p count nonblock hidle =>
    refine ⟨fun q => ?_, h.wt⟩
    exact (pc_rdCall (f := RdPc.passed) hidle rfl count nonblock q).trans (h.rd q)
  | rdStep p copyOk sig =>
    refine ⟨fun q => ?_, fun q => ?_⟩
    · by_cases hq : q = p
      · subst q
        exact (rdStep_stepped g bn d p copyOk sig).next.passed hoff (h.rd p)
      · rw [(rdStep_stepped g bn d p copyOk sig).others q hq]
        exact h.rd q
    · obtain ⟨_, _, _, _, _, _, heq⟩ := rdStep_frame g bn d p copyOk sig
      rw [heq]
      exact h.wt q
  | wtCall p count nonblock hidle =>
    refine ⟨h.rd, fun q => ?_⟩
    exact (pc_wtCall (f := WtPc.passed) hidle rfl count nonblock q).trans (h.wt q)
  | wtStep p copied sig =>
    refine ⟨fun q => ?_, fun q => ?_⟩
    · obtain ⟨_, _, _, _, _, heq⟩ := wtStep_frame g d p copied sig
      rw [heq]
      exact h.rd q
    · by_cases hq : q = p
      · subst q
        exact (wtStep_stepped g d p copied sig).next.passed hoff (h.wt p)
      · rw [(wtStep_stepped g d p copied sig).others q hq]
        exact h.wt q
  | isrCall p => exact ⟨h.rd, h.wt⟩
  | isrStep p blks n _ he =>
    obtain ⟨-, ⟨f, hrd⟩, f', hwt⟩ := (isrStep_move hf.rd hf.wt he).waits
    refine ⟨fun q => ?_, fun q => ?_⟩
    · rw [hrd, RdPc.passed_mapWait]
      exact h.rd q
    · rw [hwt, WtPc.passed_mapWait]
      exact h.wt q
  | ctlCall | ctlStep => cases hl

end PdmaXen.Pdma
