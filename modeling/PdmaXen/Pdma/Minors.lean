import PdmaXen.Pdma.Lifecycle

/-!
# Minor numbers

The numbers `pdma_dev_register` gives out over any sequence of probes and removals of
cards. `minor_idx` counts the registrations and no removal takes anything back, so the
numbers run out after `max_dev` registrations even when no card is there any more.
-/

namespace PdmaXen.Pdma.Minors
set_option autoImplicit false
open Machine Pci

/-- The module parameters `minor` and `max_dev`; `pdma_init` reserves `max_dev` numbers from
`minor` on. -/
structure Region where
  minor : Int := 0
  maxDev : Int := 32

/-- The static `minor_idx`, and the bound cards with the minor number of their cdev. -/
structure Numbers where
  minorIdx : Int := 0
  registered : List (Nat × Int) := []

inductive Call where
  | probe (card : Nat) (a : ProbeAnswers)
  | remove (card : Nat)

def Numbers.Bound (s : Numbers) (card : Nat) : Prop := card ∈ s.registered.map Prod.fst

instance (s : Numbers) (card : Nat) : Decidable (s.Bound card) :=
  inferInstanceAs (Decidable (card ∈ s.registered.map Prod.fst))

/-- The answers with what `pdma_dev_register` finds in its variables. -/
def finds (g : Region) (s : Numbers) (a : InitAnswers) : InitAnswers :=
  { a with minorIdx := s.minorIdx, maxDev := g.maxDev }

/-- `pdma_pci_probe` of a card without a driver, `pdma_pci_remove` of a bound one. -/
def call (g : Region) (s : Numbers) : Call → Option Numbers
  | .probe card a =>
    if s.Bound card then some s
    else if (pciProbe { a with init := finds g s a.init }).result.2 = 0 then
      some
        { minorIdx := s.minorIdx + 1
          registered := (card, g.minor + s.minorIdx) :: s.registered }
    else some s
  | .remove card => some { s with registered := s.registered.filter (·.1 ≠ card) }

def ready (a : InitAnswers) : Bool :=
  let parsed := inputCheckAndParse a {}
  parsed.2 == 0 && poolAccepted a parsed.1 && sizeLegal parsed.1.rdBufSize.toUInt32

def reaches (a : ProbeAnswers) : Bool :=
  a.entity && a.pcieCtrl && a.setup.accepted && ready a.init

/-- `pdma_dev_register` fails though `cdev_add` would not. -/
def LacksNumbers (g : Region) (s : Numbers) (a : InitAnswers) : Prop :=
  (devRegister { finds g s a with cdevAdd := 0 }).result = -enospc

/-- The registered devices have different numbers of the region, and numbers are lacking exactly
when `max_dev` devices are registered. -/
structure Sound (g : Region) (s : Numbers) : Prop where
  distinct : (s.registered.map Prod.snd).Nodup
  inRegion : ∀ x ∈ s.registered, g.minor ≤ x.2 ∧ x.2 < g.minor + g.maxDev
  lacks_iff : ∀ a, LacksNumbers g s a ↔ g.maxDev ≤ s.registered.length

/-- The last number is given out only while every device registered so far is still there, and
once it is given out no device is removed. -/
def Spares (g : Region) (s : Numbers) : Call → Prop
  | .probe card a =>
    ¬ s.Bound card → reaches a → a.init.cdevAdd = 0 → s.minorIdx + 1 = g.maxDev →
      s.registered.length = s.minorIdx
  | .remove card => s.Bound card → s.minorIdx < g.maxDev

/-! ## The counter -/

section
variable {g : Region} {s t : Numbers} {c : Call} {card : Nat} {a : ProbeAnswers}

/-- What the counter says of the numbers given out. -/
structure Counted (g : Region) (s : Numbers) : Prop where
  limit : s.minorIdx ≤ g.maxDev ∨ s.registered = []
  cards : (s.registered.map Prod.fst).Nodup
  distinct : (s.registered.map Prod.snd).Nodup
  given : ∀ x ∈ s.registered, g.minor ≤ x.2 ∧ x.2 < g.minor + s.minorIdx
  count : s.registered.length ≤ s.minorIdx

theorem lacksNumbers_iff (a : InitAnswers) : LacksNumbers g s a ↔ g.maxDev ≤ s.minorIdx := by
  unfold LacksNumbers devRegister finds
  dsimp only
  split
  case isTrue hge => exact iff_of_true rfl hge
  case isFalse hlt =>
    rw [if_neg (not_not.mpr rfl)]
    exact iff_of_false (by decide) hlt

theorem probe_succeeds_iff :
    (pciProbe { a with init := finds g s a.init }).result.2 = 0 ↔
      reaches a ∧ s.minorIdx < g.maxDev ∧ a.init.cdevAdd = 0 := by
  obtain ⟨⟨hret, -⟩, -⟩ := Ledger.wp_spec (wp_pciProbe { a with init := finds g s a.init })
  have hinit : (finds g s a.init).accepted
      = (ready a.init && decide (s.minorIdx < g.maxDev) && a.init.cdevAdd == 0) := rfl
  rw [hret, ProbeAnswers.accepted, hinit, reaches]
  simp only [Bool.and_eq_true, decide_eq_true_iff, beq_iff_eq, and_assoc]

/-- All a call can do: nothing, register a card with the next number, or drop a card. -/
theorem call_cases (h : call g s c = some t) :
    t = s ∨
    (∃ card a, c = .probe card a ∧ ¬ s.Bound card ∧ s.minorIdx < g.maxDev ∧ reaches a ∧
      a.init.cdevAdd = 0 ∧ t = { minorIdx := s.minorIdx + 1
                                 registered := (card, g.minor + s.minorIdx) :: s.registered }) ∨
    ∃ card, c = .remove card ∧ t = { s with registered := s.registered.filter (·.1 ≠ card) } := by
  cases c with
  | probe card a =>
    simp only [call] at h
    split at h
    case isTrue =>
      left
      exact (Option.some.inj h).symm
    case isFalse hbound =>
      split at h
      case isTrue hret =>
        right
        left
        obtain ⟨hreaches, hlt, hcdev⟩ := probe_succeeds_iff.mp hret
        exact ⟨card, a, rfl, hbound, hlt, hreaches, hcdev, (Option.some.inj h).symm⟩
      case isFalse =>
        left
        exact (Option.some.inj h).symm
  | remove card =>
    right
    right
    exact ⟨card, rfl, (Option.some.inj h).symm⟩

theorem registers (hbound : ¬ s.Bound card) (hlt : s.minorIdx < g.maxDev) (hreaches : reaches a)
    (hcdev : a.init.cdevAdd = 0) :
    call g s (.probe card a) = some
      { minorIdx := s.minorIdx + 1
        registered := (card, g.minor + s.minorIdx) :: s.registered } := by
  rw [call, if_neg hbound, if_pos (probe_succeeds_iff.mpr ⟨hreaches, hlt, hcdev⟩)]

theorem Counted.step (h : Counted g s) (hcall : call g s c = some t) : Counted g t := by
  rcases call_cases hcall with rfl | ⟨card, a, rfl, hbound, hlt, -, -, rfl⟩ | ⟨card, rfl, rfl⟩
  · exact h
  · refine ⟨Or.inl (by dsimp only; omega), ?_, ?_, ?_, ?_⟩
    · exact List.nodup_cons.mpr ⟨hbound, h.cards⟩
    · refine List.nodup_cons.mpr ⟨?_, h.distinct⟩
      intro hmem
      obtain ⟨x, hx, heq⟩ := List.mem_map.mp hmem
      have hgiven := h.given x hx
      omega
    · intro x hx
      rcases List.mem_cons.mp hx with rfl | hx
      · have hcount := h.count
        constructor <;> dsimp only <;> omega
      · have hgiven := h.given x hx
        refine ⟨hgiven.1, ?_⟩
        dsimp only
        omega
    · have hcount := h.count
      simp only [List.length_cons]
      omega
  · have hsub : (s.registered.filter (·.1 ≠ card)).Sublist s.registered := List.filter_sublist
    refine ⟨?_, (hsub.map _).nodup h.cards, (hsub.map _).nodup h.distinct, ?_, ?_⟩
    · rcases h.limit with hle | hnil
      · exact Or.inl hle
      · right
        simp [hnil]
    · exact fun x hx => h.given x (hsub.subset hx)
    · have hlen := hsub.length_le
      have hcount := h.count
      dsimp only
      omega

/-! ## When the numbers run out -/

/-- Numbers are lacking only while `max_dev` devices are registered. -/
def Full (g : Region) (s : Numbers) : Prop :=
  g.maxDev ≤ s.minorIdx → g.maxDev ≤ s.registered.length

theorem Counted.sound_iff (h : Counted g s) : Sound g s ↔ Full g s := by
  constructor
  · intro hsound hle
    exact (hsound.lacks_iff ⟨0, 0, true, fun _ => true, true, fun _ => true, 0, 32, 0⟩).mp
      ((lacksNumbers_iff _).mpr hle)
  · intro hfull
    refine ⟨h.distinct, ?_, ?_⟩
    · intro x hx
      have hgiven := h.given x hx
      rcases h.limit with hle | hnil
      · exact ⟨hgiven.1, by omega⟩
      · rw [hnil] at hx
        cases hx
    · intro a
      rw [lacksNumbers_iff]
      have hcount := h.count
      constructor
      · exact hfull
      · intro hle
        omega

theorem filter_of_not_bound (h : ¬ s.Bound card) :
    s.registered.filter (·.1 ≠ card) = s.registered := by
  apply List.filter_eq_self.mpr
  intro x hx
  simp only [ne_eq, decide_eq_true_iff]
  rintro rfl
  exact h (List.mem_map_of_mem hx)

theorem length_filter_lt (h : s.Bound card) :
    (s.registered.filter (·.1 ≠ card)).length < s.registered.length := by
  rw [List.length_filter_lt_length_iff_exists]
  obtain ⟨x, hx, heq⟩ := List.mem_map.mp h
  exact ⟨x, hx, by simp [heq]⟩

theorem Full.step (h : Counted g s) (hfull : Full g s) (hspares : Spares g s c)
    (hcall : call g s c = some t) : Full g t := by
  rcases call_cases hcall with rfl | ⟨card, a, rfl, hbound, hlt, hreaches, hcdev, rfl⟩ |
    ⟨card, rfl, rfl⟩
  · exact hfull
  · intro hle
    dsimp only at hle
    have hlast := hspares hbound hreaches hcdev (by omega)
    simp only [List.length_cons]
    omega
  · intro hle
    by_cases hbound : s.Bound card
    · have hlt := hspares hbound
      dsimp only at hle
      omega
    · dsimp only
      rw [filter_of_not_bound hbound]
      exact hfull hle

/-- A call that does not spare leaves a state in which numbers lack though devices are missing. -/
theorem not_full_of_not_spares (h : Counted g s) (hspares : ¬ Spares g s c)
    (hcall : call g s c = some t) : ¬ Full g t := by
  have hcount := h.count
  cases c with
  | probe card a =>
    simp only [Spares, not_forall] at hspares
    obtain ⟨hbound, hreaches, hcdev, hlast, hlen⟩ := hspares
    rw [registers hbound (by omega) hreaches hcdev] at hcall
    obtain rfl := Option.some.inj hcall
    intro hfull
    have hle := hfull (by dsimp only; omega)
    simp only [List.length_cons] at hle
    omega
  | remove card =>
    simp only [Spares, not_forall, not_lt] at hspares
    obtain ⟨hbound, hle⟩ := hspares
    obtain rfl := Option.some.inj hcall
    intro hfull
    have hlen := hfull hle
    have hlt := length_filter_lt hbound
    rcases h.limit with hlimit | hnil
    · dsimp only at hlen
      omega
    · rw [hnil] at hlt
      exact absurd hlt (Nat.not_lt_zero _)

end

theorem call_total (g : Region) (s : Numbers) (c : Call) : ∃ t, call g s c = some t := by
  cases c with
  | probe card a =>
    simp only [call]
    split
    · exact ⟨_, rfl⟩
    · split <;> exact ⟨_, rfl⟩
  | remove card => exact ⟨_, rfl⟩

theorem counted_init (g : Region) : Counted g {} where
  limit := Or.inr rfl
  cards := List.nodup_nil
  distinct := List.nodup_nil
  given := fun x hx => by cases hx
  count := le_refl _

/-- Through a whole history the registered devices have different numbers of the region and
registrations lack numbers only while `max_dev` devices are registered, if and only if the last
number was given out without a removal before it and none came after it. -/
theorem minors_sound_iff (g : Region) (calls : List Call) :
    Along (call g) (Spares g) {} calls ↔
      ∀ done, done <+: calls → ∀ t, exec (call g) {} done = some t → Sound g t := by
  have hfull : Full g {} := by
    intro hle
    simpa using hle
  apply along_iff_always (I := fun s => Counted g s ∧ Full g s) (call_total g)
  · intro s c t hI hspares hcall
    obtain ⟨hcounted, hfull⟩ := hI
    exact ⟨hcounted.step hcall, hfull.step hcounted hspares hcall⟩
  · intro s hI
    exact hI.1.sound_iff.mpr hI.2
  · intro s c t hI hspares hcall hsound
    obtain ⟨hcounted, -⟩ := hI
    exact not_full_of_not_spares hcounted hspares hcall ((hcounted.step hcall).sound_iff.mp hsound)
  · exact ⟨counted_init g, hfull⟩

/-- One card that comes and goes uses up the only number. -/
theorem removed_card_keeps_its_number :
    ∃ t, exec (call { maxDev := 1 }) {}
        [.probe 0 { init := { block := 4096, pool := 8192 } }, .remove 0] = some t ∧
      t.registered = [] ∧
      (devRegister (finds { maxDev := 1 } t { block := 4096, pool := 8192 })).result = -enospc ∧
      ¬ Sound { maxDev := 1 } t := by
  have hreaches : reaches { init := { block := 4096, pool := 8192 } } := by decide +kernel
  have hprobe : call { maxDev := 1 } {} (.probe 0 { init := { block := 4096, pool := 8192 } })
      = some { minorIdx := 1, registered := [(0, 0)] } :=
    registers (by decide) (by decide) hreaches rfl
  refine ⟨{ minorIdx := 1 }, ?_, rfl, by decide, ?_⟩
  · rw [exec_cons, hprobe]
    rfl
  · intro hsound
    have hlacks := (hsound.lacks_iff { block := 4096, pool := 8192 }).mp
      ((lacksNumbers_iff _).mpr (by decide))
    exact absurd hlacks (by decide)

end PdmaXen.Pdma.Minors
