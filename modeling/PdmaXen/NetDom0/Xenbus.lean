import PdmaXen.Machine

/-!
# The xenbus connection of a front end

`frontend_changed` and `chrback_remove` of one device, from its probe on. Nothing on
these paths gives a mapping or an irq back once it is made: `xen_connect_ring` passes no
error on, and `chrback_remove` has its `xen_chrif_disconnect` commented out.
-/

namespace PdmaXen.NetDom0.Xenbus
set_option autoImplicit false
open Machine

inductive XenbusState where
  | unknown | initialising | initWait | initialised | connected | closing | closed
  | reconfiguring | reconfigured
deriving DecidableEq

/-- What a front end writes to xenstore before it goes to Initialised. -/
structure Offer where
  ringRef : UInt32
  evtchn : UInt32
deriving DecidableEq

/-- What the kernel and the hypervisor answer while `xen_connect` runs. `stack` is what its
two variables hold when `xenbus_gather` does not fill them; `bind` is an irq or a negative
error number. -/
structure Answers where
  published : Offer
  stack : Offer
  gatherErr : Int := 0
  area : Bool := true
  mapFailed : Bool := false
  status : Int16 := 0
  handle : UInt32 := 0
  bind : Int
  unmapFailed : Bool := false

/-- The part of `struct xen_chrif` the connection sets. Areas are numbered from 1 as they
are allocated, 0 is NULL; `sring` is the area the back ring was initialised on. -/
structure Chrif where
  commsArea : Nat := 0
  shmemRef : UInt32 := 0
  shmemHandle : UInt32 := 0
  sring : Nat := 0
  irq : Int := 0

structure Mapping where
  area : Nat
  handle : UInt32
  ringRef : UInt32
deriving DecidableEq

structure Binding where
  irq : Int
  evtchn : UInt32
deriving DecidableEq

/-- `areas` counts the allocations, `mapped` and `bound` are what the hypervisor and the
kernel keep for the device. `halted`: the thread that delivers the changes died.
`accepted` is history: the offer at the last switch to Connected. -/
structure State where
  devState : XenbusState := .initWait
  chrif : Chrif := {}
  areas : Nat := 0
  mapped : List Mapping := []
  bound : List Binding := []
  halted : Bool := false
  removed : Bool := false
  accepted : Option Offer := none

def probed : State := {}

/-- `ring_ref` and `evtchn` after `xenbus_gather`. -/
def Answers.gathered (a : Answers) : Offer := if a.gatherErr = 0 then a.published else a.stack

namespace State

def switchState (s : State) (st : XenbusState) : State := { s with devState := st }

def devFatal (s : State) : State := s.switchState .closing

def mapFrontendPages (s : State) (a : Answers) (ringRef : UInt32) : State × Int :=
  if a.mapFailed then (s, -14)
  -- the handle that is unmapped here was never mapped
  else if a.status ≠ 0 then (s, a.status.toInt)
  else
    ({ s with
        mapped := s.mapped ++ [⟨s.chrif.commsArea, a.handle, ringRef⟩]
        chrif := { s.chrif with shmemRef := ringRef, shmemHandle := a.handle } }, 0)

/-- A refused hypercall is only printed. -/
def unmapFrontendPages (s : State) (a : Answers) : State :=
  if a.unmapFailed then s
  else
    { s with mapped := s.mapped.filter fun m =>
        !(m.area == s.chrif.commsArea && m.handle == s.chrif.shmemHandle) }

def allocVmArea (s : State) : State :=
  { s with areas := s.areas + 1, chrif := { s.chrif with commsArea := s.areas + 1 } }

def backRingInit (s : State) : State :=
  { s with chrif := { s.chrif with sring := s.chrif.commsArea } }

def bindEvtchn (s : State) (irq : Int) (evtchn : UInt32) : State :=
  { s with bound := s.bound ++ [⟨irq, evtchn⟩], chrif := { s.chrif with irq := irq } }

/-- `none` for a fault. `freesNull` says whether `free_vm_area` of NULL comes back. -/
def chrifMap (freesNull : Bool) (s : State) (a : Answers) (o : Offer) : State × Option Int :=
  if !a.area then
    let s := { s with chrif := { s.chrif with commsArea := 0 } }
    if freesNull then (s, some (-12)) else ({ s with halted := true }, none)
  else
    let (s, err) := s.allocVmArea.mapFrontendPages a o.ringRef
    if err ≠ 0 then (s, some err)
    else
      let s := s.backRingInit
      if a.bind < 0 then (s.unmapFrontendPages a, some (-14))
      else (s.bindEvtchn a.bind o.evtchn, some 0)

/-- Neither error is passed on. -/
def xenConnectRing (freesNull : Bool) (s : State) (a : Answers) : State × Option Int :=
  let s := if a.gatherErr ≠ 0 then s.devFatal else s
  let (s, err) := s.chrifMap freesNull a a.gathered
  (s, err.map fun _ => 0)

def xenConnect (freesNull : Bool) (s : State) (a : Answers) : State :=
  match s.xenConnectRing freesNull a with
  | (s, none) => s
  | (s, some err) =>
    if err ≠ 0 then s
    else { s.switchState .connected with accepted := some a.published }

/-- `be->chrif` is set from probe to remove, so a change to Initialised always connects. -/
def frontendChanged (freesNull : Bool) (s : State) (a : Answers) : XenbusState → State
  | .initialising => if s.devState = .closed then s.switchState .initWait else s
  | .initialised => s.xenConnect freesNull a
  | .connected => s
  | .closing => s.switchState .closing
  | .closed => s.switchState .closed
  | .unknown => s
  | .initWait | .reconfiguring | .reconfigured => s.devFatal

def chrbackRemove (s : State) : State := { s with removed := true }

end State

inductive Event where
  | changed (st : XenbusState) (a : Answers)
  | remove

/-- The bus ends the watch before it removes the device, and a dead thread delivers no
change. -/
def step (freesNull : Bool) (s : State) : Event → Option State
  | .changed st a =>
    some (if s.removed || s.halted then s else s.frontendChanged freesNull a st)
  | .remove => some s.chrbackRemove

theorem step_total (freesNull : Bool) (s : State) (e : Event) :
    ∃ t, step freesNull s e = some t := by
  cases e <;> exact ⟨_, rfl⟩

/-- The offered page is the only one mapped and the ring lies on it; the offered channel is
the only one bound. -/
def Serves (s : State) (o : Offer) : Prop :=
  ∃ m b, s.mapped = [m] ∧ s.bound = [b] ∧ m.ringRef = o.ringRef ∧ b.evtchn = o.evtchn ∧
    s.chrif.sring = m.area ∧ s.chrif.irq = b.irq

def HoldsNothing (s : State) : Prop := s.mapped = [] ∧ s.bound = []

/-- What the connection owes its front end and the kernel. -/
structure Sound (s : State) : Prop where
  connected : s.removed = false → s.devState = .connected → ∃ o, s.accepted = some o ∧ Serves s o
  once : s.mapped.length ≤ 1 ∧ s.bound.length ≤ 1
  released : s.removed = true → HoldsNothing s

def Answers.maps (a : Answers) : Bool := a.area && !a.mapFailed && a.status == 0

/-- The answers make a first connection, or leave the one that serves this offer as it is,
or kill the thread. -/
def Connects (freesNull : Bool) (s : State) (a : Answers) : Prop :=
  (a.maps = true ∧ 0 ≤ a.bind ∧ a.gathered = a.published ∧ HoldsNothing s) ∨
    (a.maps = false ∧ Serves s a.published) ∨ (a.area = false ∧ freesNull = false)

/-- An Initialised that is delivered connects, and only a device that holds nothing is
removed. -/
def Orderly (freesNull : Bool) (s : State) : Event → Prop
  | .changed .initialised a => s.removed = false → s.halted = false → Connects freesNull s a
  | .changed _ _ => True
  | .remove => HoldsNothing s

/-! ## What a change does to the links -/

section
variable {freesNull : Bool} {s t : State} {a : Answers} {o : Offer}

/-- Mappings, bindings and what the interrupt handler uses of them stay as they are. -/
structure Keeps (s t : State) : Prop where
  mapped : t.mapped = s.mapped := by rfl
  bound : t.bound = s.bound := by rfl
  sring : t.chrif.sring = s.chrif.sring := by rfl
  irq : t.chrif.irq = s.chrif.irq := by rfl
  areas : s.areas ≤ t.areas := by exact Nat.le_refl _
  removed : t.removed = s.removed := by rfl

theorem Keeps.refl (s : State) : Keeps s s := {}

theorem Keeps.serves_iff (h : Keeps s t) : Serves t o ↔ Serves s o := by
  simp only [Serves, h.mapped, h.bound, h.sring, h.irq]

theorem Keeps.trans {u : State} (h : Keeps s t) (h' : Keeps t u) : Keeps s u where
  mapped := h'.mapped.trans h.mapped
  bound := h'.bound.trans h.bound
  sring := h'.sring.trans h.sring
  irq := h'.irq.trans h.irq
  areas := Nat.le_trans h.areas h'.areas
  removed := h'.removed.trans h.removed

def afterGather (s : State) (a : Answers) : State := if a.gatherErr ≠ 0 then s.devFatal else s

theorem keeps_afterGather (s : State) (a : Answers) : Keeps s (afterGather s a) := by
  unfold afterGather
  split
  · exact {}
  · exact .refl s

def ringMapped (s : State) (a : Answers) (ringRef : UInt32) : State :=
  { s with
    areas := s.areas + 1
    mapped := s.mapped ++ [⟨s.areas + 1, a.handle, ringRef⟩]
    chrif := { s.chrif with
      commsArea := s.areas + 1, sring := s.areas + 1, shmemRef := ringRef
      shmemHandle := a.handle } }

theorem chrifMap_faulted (harea : a.area = false) : s.chrifMap false a o
    = ({ s with halted := true, chrif := { s.chrif with commsArea := 0 } }, none) := by
  simp [State.chrifMap, harea]

theorem keeps_allocVmArea (s : State) : Keeps s s.allocVmArea :=
  { areas := Nat.le_succ _ }

theorem chrifMap_refused (hmaps : a.maps = false) (hfree : a.area = true ∨ freesNull = true) :
    ∃ t err, s.chrifMap freesNull a o = (t, some err) ∧ Keeps s t := by
  unfold State.chrifMap
  cases harea : a.area with
  | false =>
    have hnull : freesNull = true := by simpa [harea] using hfree
    simp only [Bool.not_false, if_true, hnull]
    exact ⟨_, _, rfl, {}⟩
  | true =>
    obtain ⟨err, herr, hmap⟩ : ∃ err, err ≠ 0 ∧
        s.allocVmArea.mapFrontendPages a o.ringRef = (s.allocVmArea, err) := by
      unfold State.mapFrontendPages
      cases hfailed : a.mapFailed with
      | true => exact ⟨-14, by decide, rfl⟩
      | false =>
        have hstatus : a.status ≠ 0 := by simpa [Answers.maps, harea, hfailed] using hmaps
        refine ⟨a.status.toInt, fun h => hstatus (Int16.toInt_inj.mp h), ?_⟩
        rw [if_neg (by decide), if_pos hstatus]
    refine ⟨s.allocVmArea, err, ?_, keeps_allocVmArea s⟩
    simp [hmap, herr]

theorem chrifMap_mapped (hmaps : a.maps = true) : s.chrifMap freesNull a o
    = if a.bind < 0 then ((ringMapped s a o.ringRef).unmapFrontendPages a, some (-14))
      else ((ringMapped s a o.ringRef).bindEvtchn a.bind o.evtchn, some 0) := by
  simp only [Answers.maps, Bool.and_eq_true, Bool.not_eq_true', beq_iff_eq] at hmaps
  obtain ⟨⟨harea, hfailed⟩, hstatus⟩ := hmaps
  simp [State.chrifMap, State.mapFrontendPages, harea, hfailed, hstatus]
  rfl

def switched (t : State) (o : Offer) : State :=
  { t.switchState .connected with accepted := some o }

theorem xenConnectRing_eq : s.xenConnectRing freesNull a
    = ((afterGather s a).chrifMap freesNull a a.gathered).map id fun err => err.map fun _ => 0 :=
  rfl

theorem xenConnect_eq {err : Int}
    (hmap : (afterGather s a).chrifMap freesNull a a.gathered = (t, some err)) :
    s.xenConnect freesNull a = switched t a.published := by
  rw [State.xenConnect, xenConnectRing_eq, hmap]
  rfl

theorem xenConnect_faulted (harea : a.area = false) :
    Keeps s (s.xenConnect false a) ∧ (s.xenConnect false a).accepted = s.accepted ∧
      ((s.xenConnect false a).devState = .connected → s.devState = .connected) := by
  have hk := keeps_afterGather s a
  rw [State.xenConnect, xenConnectRing_eq, chrifMap_faulted harea]
  refine ⟨⟨hk.mapped, hk.bound, hk.sring, hk.irq, hk.areas, hk.removed⟩, ?_⟩
  simp only [Prod.map, id, Option.map_none, afterGather]
  split
  · exact ⟨rfl, nofun⟩
  · exact ⟨rfl, id⟩

theorem xenConnect_refused (hmaps : a.maps = false) (hfree : a.area = true ∨ freesNull = true) :
    ∃ t, s.xenConnect freesNull a = switched t a.published ∧ Keeps s t := by
  obtain ⟨t, err, hmap, hkeeps⟩ :=
    chrifMap_refused (s := afterGather s a) (o := a.gathered) hmaps hfree
  exact ⟨t, xenConnect_eq hmap, (keeps_afterGather s a).trans hkeeps⟩

theorem xenConnect_unbound (hmaps : a.maps = true) (hbind : a.bind < 0) :
    s.xenConnect freesNull a = switched
      ((ringMapped (afterGather s a) a a.gathered.ringRef).unmapFrontendPages a) a.published := by
  have hmap : (afterGather s a).chrifMap freesNull a a.gathered
      = ((ringMapped (afterGather s a) a a.gathered.ringRef).unmapFrontendPages a, some (-14)) := by
    rw [chrifMap_mapped hmaps, if_pos hbind]
  exact xenConnect_eq hmap

theorem xenConnect_bound (hmaps : a.maps = true) (hbind : 0 ≤ a.bind) :
    s.xenConnect freesNull a = switched
      ((ringMapped (afterGather s a) a a.gathered.ringRef).bindEvtchn a.bind a.gathered.evtchn)
      a.published := by
  have hmap : (afterGather s a).chrifMap freesNull a a.gathered
      = ((ringMapped (afterGather s a) a a.gathered.ringRef).bindEvtchn a.bind a.gathered.evtchn,
        some 0) := by
    rw [chrifMap_mapped hmaps, if_neg (by omega)]
  exact xenConnect_eq hmap

/-! ## Every run -/

/-- The invariant of the orderly runs. -/
structure Linked (s : State) : Prop where
  sound : Sound s
  areas : ∀ m ∈ s.mapped, m.area ≤ s.areas
  paired : s.mapped.length = s.bound.length

theorem holdsNothing_of_keeps (h : Keeps s t) : HoldsNothing t ↔ HoldsNothing s := by
  simp only [HoldsNothing, h.mapped, h.bound]

theorem Linked.keep (h : Linked s) (hkeeps : Keeps s t)
    (hconn : t.removed = false → t.devState = .connected →
      ∃ o, t.accepted = some o ∧ Serves t o) : Linked t where
  sound :=
    { connected := hconn
      once := by
        rw [hkeeps.mapped, hkeeps.bound]
        exact h.sound.once
      released := fun hremoved =>
        (holdsNothing_of_keeps hkeeps).mpr (h.sound.released (hkeeps.removed ▸ hremoved)) }
  areas m hm := by
    rw [hkeeps.mapped] at hm
    exact Nat.le_trans (h.areas m hm) hkeeps.areas
  paired := by
    rw [hkeeps.mapped, hkeeps.bound]
    exact h.paired

theorem Linked.stay (h : Linked s) (hkeeps : Keeps s t) (haccepted : t.accepted = s.accepted)
    (hstate : t.devState = .connected → s.devState = .connected) : Linked t := by
  refine h.keep hkeeps fun hremoved hconn => ?_
  obtain ⟨o, ho, hserves⟩ := h.sound.connected (hkeeps.removed ▸ hremoved) (hstate hconn)
  exact ⟨o, haccepted.trans ho, hkeeps.serves_iff.mpr hserves⟩

theorem keeps_switched (h : Keeps s t) (o : Offer) : Keeps s (switched t o) :=
  ⟨h.mapped, h.bound, h.sring, h.irq, h.areas, h.removed⟩

theorem Linked.connect (h : Linked s) (hremoved : s.removed = false) (hc : Connects freesNull s a) :
    Linked (s.xenConnect freesNull a) := by
  have hk := keeps_afterGather s a
  rcases hc with ⟨hmaps, hbind, hgathered, hnothing⟩ | ⟨hmaps, hserves⟩ | ⟨harea, rfl⟩
  · obtain ⟨hmapped, hbound⟩ := (holdsNothing_of_keeps hk).mpr hnothing
    rw [xenConnect_bound hmaps hbind]
    generalize afterGather s a = u at *
    have hmap : (switched ((ringMapped u a a.gathered.ringRef).bindEvtchn a.bind a.gathered.evtchn)
        a.published).mapped = [⟨u.areas + 1, a.handle, a.gathered.ringRef⟩] := by
      simp [switched, State.switchState, State.bindEvtchn, ringMapped, hmapped]
    have hbnd : (switched ((ringMapped u a a.gathered.ringRef).bindEvtchn a.bind a.gathered.evtchn)
        a.published).bound = [⟨a.bind, a.gathered.evtchn⟩] := by
      simp [switched, State.switchState, State.bindEvtchn, ringMapped, hbound]
    refine ⟨⟨fun _ _ => ⟨a.published, rfl, _, _, hmap, hbnd, ?_, ?_, rfl, rfl⟩, ?_, ?_⟩, ?_, ?_⟩
    · rw [hgathered]
    · rw [hgathered]
    · rw [hmap, hbnd]
      simp
    · intro hrem
      have hlive : u.removed = false := hk.removed.trans hremoved
      exact absurd (hlive.symm.trans hrem) (by decide)
    · intro m hm
      rw [hmap, List.mem_singleton] at hm
      rw [hm]
      exact Nat.le_refl _
    · rw [hmap, hbnd]
      rfl
  · by_cases hfree : a.area = true ∨ freesNull = true
    · obtain ⟨t, heq, hkeeps⟩ := xenConnect_refused (s := s) hmaps hfree
      rw [heq]
      exact h.keep (keeps_switched hkeeps _) fun _ _ =>
        ⟨a.published, rfl, (keeps_switched hkeeps _).serves_iff.mpr hserves⟩
    · obtain ⟨harea, hnull⟩ : a.area = false ∧ freesNull = false := by simpa using hfree
      subst hnull
      obtain ⟨hkeeps, haccepted, hstate⟩ := xenConnect_faulted (s := s) harea
      exact h.stay hkeeps haccepted hstate
  · obtain ⟨hkeeps, haccepted, hstate⟩ := xenConnect_faulted (s := s) harea
    exact h.stay hkeeps haccepted hstate

theorem serves_of_switched (hsound : Sound (switched t o)) (hremoved : t.removed = false) :
    Serves (switched t o) o := by
  obtain ⟨o', ho, hserves⟩ := hsound.connected hremoved rfl
  cases ho
  exact hserves

theorem not_serves_unbound (hareas : ∀ m ∈ s.mapped, m.area ≤ s.areas)
    (hpaired : s.mapped.length = s.bound.length) (ringRef : UInt32) :
    ¬Serves ((ringMapped s a ringRef).unmapFrontendPages a) o := by
  rintro ⟨m, b, hmapped, hbound, -, -, hsring, -⟩
  unfold State.unmapFrontendPages at hmapped hbound hsring
  split at hmapped
  · next hunmap =>
    rw [if_pos hunmap] at hbound
    have hone : s.bound = [b] := hbound
    rw [hone] at hpaired
    have htwo := congrArg List.length hmapped
    simp only [ringMapped, List.length_append, List.length_cons, List.length_nil] at htwo hpaired
    omega
  · next hunmap =>
    rw [if_neg hunmap] at hsring
    have harea : s.areas + 1 = m.area := hsring
    have hm := List.mem_filter.mp (hmapped ▸ List.mem_singleton_self m)
    rcases List.mem_append.mp hm.1 with hold | hnew
    · have hle := hareas m hold
      omega
    · rw [List.mem_singleton.mp hnew] at hm
      simp [ringMapped] at hm

theorem serves_bound (h : Serves
    ((ringMapped s a a.gathered.ringRef).bindEvtchn a.bind a.gathered.evtchn) o) :
    HoldsNothing s ∧ a.gathered = o := by
  obtain ⟨m, b, hmapped, hbound, href, hevtchn, -, -⟩ := h
  obtain ⟨hnil, hm⟩ := List.append_eq_singleton_iff.mp hmapped |>.resolve_right (by simp)
  obtain ⟨hnil', hb⟩ := List.append_eq_singleton_iff.mp hbound |>.resolve_right (by simp)
  cases hm
  cases hb
  refine ⟨⟨hnil, hnil'⟩, ?_⟩
  cases hgathered : a.gathered
  cases o
  simp_all

/-- Any other answers leave a device that is Connected without a link, or has two. -/
theorem not_sound_connect (h : Linked s) (hremoved : s.removed = false)
    (hc : ¬Connects freesNull s a) : ¬Sound (s.xenConnect freesNull a) := by
  intro hsound
  have hk := keeps_afterGather s a
  have hlive : (afterGather s a).removed = false := hk.removed.trans hremoved
  cases hmaps : a.maps with
  | true =>
    rcases Int.lt_or_le a.bind 0 with hbind | hbind
    · rw [xenConnect_unbound hmaps hbind] at hsound
      have hunmapRemoved : ((ringMapped (afterGather s a) a a.gathered.ringRef).unmapFrontendPages
          a).removed = false := by
        unfold State.unmapFrontendPages
        split <;> exact hlive
      refine not_serves_unbound ?_ ?_ _ (serves_of_switched hsound hunmapRemoved)
      · intro m hm
        rw [hk.mapped] at hm
        exact Nat.le_trans (h.areas m hm) hk.areas
      · rw [hk.mapped, hk.bound]
        exact h.paired
    · rw [xenConnect_bound hmaps hbind] at hsound
      obtain ⟨hnothing, hgathered⟩ := serves_bound (serves_of_switched hsound hlive)
      exact hc (.inl ⟨hmaps, hbind, hgathered, (holdsNothing_of_keeps hk).mp hnothing⟩)
  | false =>
    by_cases hfree : a.area = true ∨ freesNull = true
    · obtain ⟨t, heq, hkeeps⟩ := xenConnect_refused (s := s) hmaps hfree
      rw [heq] at hsound
      have hserves := serves_of_switched hsound (hkeeps.removed.trans hremoved)
      exact hc (.inr (.inl ⟨hmaps, (keeps_switched hkeeps _).serves_iff.mp hserves⟩))
    · exact hc (.inr (.inr (by simpa using hfree)))

theorem Linked.change (h : Linked s) (hremoved : s.removed = false) (hhalted : s.halted = false)
    {st : XenbusState} (hc : Orderly freesNull s (.changed st a)) :
    Linked (s.frontendChanged freesNull a st) := by
  have hswitch (st' : XenbusState) (hst : st' ≠ .connected) : Linked (s.switchState st') :=
    h.stay {} rfl fun hconn => absurd hconn hst
  cases st with
  | initialised => exact h.connect hremoved (hc hremoved hhalted)
  | initialising =>
    simp only [State.frontendChanged]
    split
    · exact hswitch _ nofun
    · exact h
  | connected | unknown => exact h
  | closing | initWait | reconfiguring | reconfigured => exact hswitch .closing nofun
  | closed => exact hswitch .closed nofun

theorem Linked.step (h : Linked s) {e : Event} (hc : Orderly freesNull s e)
    (hstep : step freesNull s e = some t) : Linked t := by
  cases e with
  | changed st a =>
    cases hstep
    split
    · exact h
    · next hon =>
      obtain ⟨hremoved, hhalted⟩ : s.removed = false ∧ s.halted = false := by simpa using hon
      exact h.change hremoved hhalted hc
  | remove =>
    cases hstep
    exact ⟨⟨nofun, h.sound.once, fun _ => hc⟩, h.areas, h.paired⟩

theorem not_sound_step (h : Linked s) {e : Event} (hc : ¬Orderly freesNull s e)
    (hstep : step freesNull s e = some t) : ¬Sound t := by
  cases e with
  | changed st a =>
    cases st with
    | initialised =>
      obtain ⟨hremoved, hhalted, hc⟩ :
          s.removed = false ∧ s.halted = false ∧ ¬Connects freesNull s a := by
        simpa [Orderly] using hc
      cases hstep
      simp only [hremoved, hhalted, Bool.or_self, Bool.false_eq_true, if_false]
      exact not_sound_connect h hremoved hc
    | _ => exact absurd trivial hc
  | remove =>
    cases hstep
    exact fun hsound => hc (hsound.released rfl)

end

/-- The connection is sound in all states of exactly the orderly runs. -/
theorem connection_sound (freesNull : Bool) (es : List Event) :
    Along (step freesNull) (Orderly freesNull) probed es ↔
      ∀ ms, ms <+: es → ∀ t, exec (step freesNull) probed ms = some t → Sound t := by
  have hprobed : Linked probed :=
    ⟨⟨nofun, by decide, nofun⟩, nofun, rfl⟩
  exact along_iff_always (I := Linked) (step_total freesNull) (fun h hc hstep => h.step hc hstep)
    (fun h => h.sound) (fun h hc hstep => not_sound_step h hc hstep) hprobed

def offer : Offer := ⟨8, 5⟩

def linkMade : Event := .changed .initialised { published := offer, stack := offer, bind := 16 }

/-- A refused ring page leaves the device Connected without one, a reconnect takes a second
page and a second irq, and a removed device keeps both. -/
theorem connection_leaked :
    (∃ t, exec (step false) probed
      [.changed .initialised { published := offer, stack := offer, status := -1, bind := 16 }]
        = some t ∧ ¬Sound t ∧ t.devState = .connected ∧ t.mapped = []) ∧
    (∃ t, exec (step false) probed
      [linkMade, .changed .closed { published := offer, stack := offer, bind := 16 },
        .changed .initialising { published := offer, stack := offer, bind := 16 }, linkMade]
        = some t ∧ ¬Sound t ∧ t.mapped.length = 2 ∧ t.bound.length = 2) ∧
    (∃ t, exec (step false) probed [linkMade, .remove] = some t ∧ ¬Sound t ∧
      t.mapped.length = 1 ∧ t.bound.length = 1) := by
  refine ⟨⟨_, rfl, fun hsound => ?_, rfl, rfl⟩, ⟨_, rfl, fun hsound => ?_, rfl, rfl⟩,
    ⟨_, rfl, fun hsound => ?_, rfl, rfl⟩⟩
  · obtain ⟨o, -, m, b, hmapped, -⟩ := hsound.connected rfl rfl
    cases hmapped
  · exact absurd hsound.once.1 (by decide)
  · exact absurd (hsound.released rfl).1 (by decide)

end PdmaXen.NetDom0.Xenbus
