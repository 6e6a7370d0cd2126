import PdmaXen.Machine

/-!
# Grant mapping

`xen_chrbk_map` and `xen_chrbk_unmap` of both back ends on the grants the hypervisor
has mapped for them. They differ in the number of pages and in the sizes of the
arrays: `Net_Dom0` maps `SHARE_MEMORY_PN` pages, `Dom0` as many as the guest asks for.
-/

namespace PdmaXen.Grants
set_option autoImplicit false
open Machine

/-- `Dom0` allocates `map_pages` for the pages of one write block. -/
inductive BackEnd where
  | netDom0
  | dom0 (wtBlockSz : UInt32)

/-- The size of `op_gref`, `map_ops`, `unmap_ops` and `pages_handle`. -/
def BackEnd.maxGref : BackEnd → Nat
  | .netDom0 => 16
  | .dom0 _ => 10

def shareMemoryPn : Nat := 16

/-- The entries of `map_pages` that `device_probe` allocates. -/
def BackEnd.mapPagesLen : BackEnd → Nat
  | .netDom0 => shareMemoryPn
  | .dom0 wtBlockSz => wtBlockSz.toNat / 4096

/-- A page of the area that `alloc_vm_area` returned. The areas are numbered from 1; page 0
of area 0 is the 0 that `map_pages` is filled with. -/
structure HostAddr where
  area : Nat
  page : Nat
deriving DecidableEq

structure Mapping where
  hostAddr : HostAddr
  gref : Nat
  handle : Nat

/-- What `HYPERVISOR_grant_table_op` answers for one page: it fails as a whole, or it leaves a
`status` and, if that is 0, a `handle`; otherwise `handle` is what was there. -/
structure Answer where
  failed : Bool
  status : Int
  handle : Nat

def Answer.maps (a : Answer) : Bool := !a.failed && a.status == 0

/-- A MAP request. `nrPages` and `count` are the two reads `Dom0` makes of `req->nr_pages` on
the shared ring, `area` says whether `alloc_vm_area` finds an area. -/
structure Request where
  nrPages : Int
  count : Int
  opGref : Nat → Nat
  area : Bool
  answers : Nat → Answer

/-- `mapped` are the grants the hypervisor has mapped, `areas` the areas allocated so far.
`oops` is a NULL pointer access, `outOfBounds` an index beyond an array. The rest is history:
the handles the last MAP recorded, its grants, the pages it mapped when it returned 0 and
none were unmapped since, and whether an unmap went to no mapped grant. -/
structure State where
  mapPages : Nat → HostAddr := fun _ => ⟨0, 0⟩
  pagesHandle : Nat → Nat
  nrPages : Int
  mapped : List Mapping := []
  areas : Nat := 0
  oops : Bool := false
  outOfBounds : Bool := false
  recorded : List Nat := []
  grefs : Nat → Nat := fun _ => 0
  held : Nat := 0
  stray : Bool := false

/-- After `device_probe`; what `kmalloc` left in the rest of the `chrif` is anything. -/
def start (pagesHandle : Nat → Nat) (nrPages : Int) : State := { pagesHandle, nrPages }

def efault : Int := 14

def Mapping.isAt (hostAddr : HostAddr) (handle : Nat) (m : Mapping) : Bool :=
  m.hostAddr == hostAddr && m.handle == handle

namespace State

def index (b : BackEnd) (s : State) (i : Nat) : State :=
  { s with outOfBounds := s.outOfBounds || b.maxGref ≤ i || b.mapPagesLen ≤ i }

def unmapGrantRef (s : State) (hostAddr : HostAddr) (handle : Nat) : State :=
  { s with mapped := s.mapped.eraseP (Mapping.isAt hostAddr handle) }

/-- One pass of the loop of `xen_chrbk_map`; `some` is a return. -/
def mapPage (b : BackEnd) (req : Request) (i : Nat) (s : State) : State × Option Int :=
  let hostAddr : HostAddr := ⟨s.areas, i⟩
  let s := { s.index b i with mapPages := Function.update s.mapPages i hostAddr }
  let op := req.answers i
  if op.failed then (s, some (-efault))
  else if op.status ≠ 0 then (s.unmapGrantRef hostAddr op.handle, some op.status)
  else
    ({ s with
        mapped := s.mapped ++ [⟨hostAddr, req.opGref i, op.handle⟩]
        pagesHandle := Function.update s.pagesHandle i op.handle
        recorded := s.recorded ++ [op.handle] }, none)

def mapLoop (b : BackEnd) (req : Request) : Nat → Nat → State → State × Int
  | 0, _, s => (s, 0)
  | n + 1, i, s =>
    match s.mapPage b req i with
    | (s', some err) => (s', err)
    | (s', none) => mapLoop b req n (i + 1) s'

end State

def BackEnd.count : BackEnd → Request → Nat
  | .netDom0, _ => shareMemoryPn
  | .dom0 _, req => req.count.toNat

/-- `chrif->nr_pages = req->nr_pages` -/
def BackEnd.store : BackEnd → Request → State → State
  | .netDom0, _, s => s
  | .dom0 _, req, s => { s with nrPages := req.nrPages }

namespace State

def xenChrbkMap (b : BackEnd) (req : Request) (s : State) : State × Int :=
  let s := { b.store req s with recorded := [], grefs := req.opGref }
  if req.area then mapLoop b req (b.count req) 0 { s with areas := s.areas + 1 }
  -- the first page dereferences the NULL area
  else if b.count req = 0 then (s, 0)
  else ({ s with oops := true }, -efault)

def unmapPage (b : BackEnd) (i : Nat) (s : State) : State :=
  let hostAddr := s.mapPages i
  let handle := s.pagesHandle i
  let hit := s.mapped.any (Mapping.isAt hostAddr handle)
  { (s.index b i).unmapGrantRef hostAddr handle with stray := s.stray || !hit }

def unmapLoop (b : BackEnd) : Nat → Nat → State → State
  | 0, _, s => s
  | n + 1, i, s => unmapLoop b n (i + 1) (s.unmapPage b i)

end State

def BackEnd.unmapCount : BackEnd → State → Nat
  | .netDom0, _ => shareMemoryPn
  | .dom0 _, s => s.nrPages.toNat

def State.xenChrbkUnmap (b : BackEnd) (s : State) : State := s.unmapLoop b (b.unmapCount s) 0

inductive Label where
  | map (req : Request)
  | unmap

def step (b : BackEnd) (s : State) : Label → Option State
  | .map req =>
    let (s', ret) := s.xenChrbkMap b req
    some { s' with held := if ret = 0 then b.count req else 0 }
  | .unmap => some { s.xenChrbkUnmap b with held := 0, recorded := [] }

theorem step_total (b : BackEnd) (s : State) (l : Label) : ∃ t, step b s l = some t := by
  cases l <;> exact ⟨_, rfl⟩

/-- The pages of the last request are mapped as long as it succeeded and they are not unmapped,
and nothing else is; their handles are recorded, and no others; every index was within its
array, and every unmap released a mapped grant. -/
structure AllOrNothing (s : State) : Prop where
  mapped : s.mapped = (List.range s.held).map fun i => ⟨s.mapPages i, s.grefs i, s.pagesHandle i⟩
  recorded : s.recorded = (List.range s.held).map s.pagesHandle
  inBounds : s.outOfBounds = false
  noOops : s.oops = false
  once : s.stray = false

/-- The entries all arrays have. -/
def BackEnd.bound (b : BackEnd) : Nat := min b.maxGref b.mapPagesLen

/-- A MAP comes with nothing mapped, finds its area, and either maps pages that fit in the
arrays or fails at the first one. An unmap goes through the pages that are mapped. -/
def Fits (b : BackEnd) (s : State) : Label → Prop
  | .map req => s.held = 0 ∧ (b.count req = 0 ∨ req.area = true ∧ 0 < b.bound ∧
      ((req.answers 0).maps = false ∨
        b.count req ≤ b.bound ∧ ∀ i < b.count req, (req.answers i).maps = true))
  | .unmap => b.unmapCount s = s.held

def Label.allocates : Label → Bool
  | .map req => req.area
  | .unmap => false

def Request.mapping (req : Request) (area i : Nat) : Mapping :=
  ⟨⟨area, i⟩, req.opGref i, (req.answers i).handle⟩

@[simp] theorem index_outOfBounds (b : BackEnd) (s : State) (i : Nat) :
    (s.index b i).outOfBounds = (s.outOfBounds || decide (b.bound ≤ i)) := by
  have hiff : b.bound ≤ i ↔ b.maxGref ≤ i ∨ b.mapPagesLen ≤ i := by
    simp only [BackEnd.bound]
    omega
  simp [State.index, hiff, Bool.or_assoc]

theorem bound_touched (o : Bool) (bound k : Nat) :
    ((o || decide (bound < k)) || decide (bound ≤ k)) = (o || decide (bound < k + 1)) := by
  rw [Bool.or_assoc, ← Bool.decide_or]
  congr 2
  apply propext
  omega

section Mapping
variable {b : BackEnd} {req : Request} {s₀ s : State}

/-- The loop of `xen_chrbk_map` entered in `s₀` has mapped `k` pages and has touched `j`. -/
structure MappedTo (b : BackEnd) (req : Request) (s₀ : State) (k j : Nat) (s : State) : Prop where
  mapped : s.mapped = s₀.mapped ++ (List.range k).map (req.mapping s₀.areas)
  mapPages : ∀ i < k, s.mapPages i = ⟨s₀.areas, i⟩
  pagesHandle : ∀ i < k, s.pagesHandle i = (req.answers i).handle
  recorded : s.recorded = s₀.recorded ++ (List.range k).map fun i => (req.answers i).handle
  outOfBounds : s.outOfBounds = (s₀.outOfBounds || decide (b.bound < j))
  areas : s.areas = s₀.areas
  grefs : s.grefs = s₀.grefs
  oops : s.oops = s₀.oops
  stray : s.stray = s₀.stray

theorem MappedTo.zero : MappedTo b req s₀ 0 0 s₀ := by
  constructor <;> simp

theorem MappedTo.touch {k : Nat} (h : MappedTo b req s₀ k k s) :
    MappedTo b req s₀ k (k + 1)
      { s.index b k with mapPages := Function.update s.mapPages k ⟨s₀.areas, k⟩ } := by
  constructor
  case mapped => exact h.mapped
  case mapPages =>
    intro i hi
    rw [← h.mapPages i hi]
    exact Function.update_of_ne (Nat.ne_of_lt hi) _ _
  case pagesHandle => exact h.pagesHandle
  case recorded => exact h.recorded
  case outOfBounds =>
    simp only [index_outOfBounds, h.outOfBounds]
    exact bound_touched _ _ _
  case areas => exact h.areas
  case grefs => exact h.grefs
  case oops => exact h.oops
  case stray => exact h.stray

theorem MappedTo.mapPage_maps {k : Nat} (h : MappedTo b req s₀ k k s)
    (hk : (req.answers k).maps = true) :
    ∃ t, s.mapPage b req k = (t, none) ∧ MappedTo b req s₀ (k + 1) (k + 1) t := by
  obtain ⟨hfailed, hstatus⟩ : (req.answers k).failed = false ∧ (req.answers k).status = 0 := by
    simpa [Answer.maps] using hk
  have htouch := h.touch
  refine ⟨_, by simp only [State.mapPage, hfailed, hstatus, h.areas]; rfl, ?_⟩
  constructor
  case mapped => simp [List.range_succ, State.index, h.mapped, Request.mapping]
  case mapPages =>
    intro i hi
    rcases Nat.lt_succ_iff_lt_or_eq.mp hi with hi | rfl
    · exact htouch.mapPages i hi
    · exact Function.update_self _ _ _
  case pagesHandle =>
    intro i hi
    rcases Nat.lt_succ_iff_lt_or_eq.mp hi with hi | rfl
    · rw [← h.pagesHandle i hi]
      exact Function.update_of_ne (Nat.ne_of_lt hi) _ _
    · exact Function.update_self _ _ _
  case recorded => simp [List.range_succ, State.index, h.recorded]
  case outOfBounds => exact htouch.outOfBounds
  case areas => exact htouch.areas
  case grefs => exact htouch.grefs
  case oops => exact htouch.oops
  case stray => exact htouch.stray

/-- The page that fails is at an address where nothing is mapped: the unmap after it
takes nothing away. -/
theorem MappedTo.mapPage_fails {k : Nat} (h : MappedTo b req s₀ k k s)
    (hfresh : ∀ m ∈ s₀.mapped, m.hostAddr.area < s₀.areas) (hk : (req.answers k).maps = false) :
    ∃ t err, s.mapPage b req k = (t, some err) ∧ err ≠ 0 ∧ MappedTo b req s₀ k (k + 1) t := by
  have hnone : ∀ handle, ∀ m ∈ s.mapped, ¬ m.isAt ⟨s₀.areas, k⟩ handle = true := by
    intro handle m hm hat
    have haddr : m.hostAddr = ⟨s₀.areas, k⟩ := by
      simp only [Mapping.isAt, Bool.and_eq_true, beq_iff_eq] at hat
      exact hat.1
    rw [h.mapped, List.mem_append, List.mem_map] at hm
    rcases hm with hm | ⟨i, hi, rfl⟩
    · have hlt := hfresh m hm
      rw [haddr] at hlt
      exact Nat.lt_irrefl _ hlt
    · obtain rfl : i = k := congrArg HostAddr.page haddr
      exact Nat.lt_irrefl _ (List.mem_range.mp hi)
  cases hfailed : (req.answers k).failed with
  | true =>
    refine ⟨_, _, by simp only [State.mapPage, hfailed, h.areas]; rfl, by decide, h.touch⟩
  | false =>
    have hstatus : (req.answers k).status ≠ 0 := by simpa [Answer.maps, hfailed] using hk
    refine ⟨_, _, by simp only [State.mapPage, hfailed, h.areas, if_pos hstatus]; rfl, hstatus, ?_⟩
    have herase : s.mapped.eraseP (Mapping.isAt ⟨s₀.areas, k⟩ (req.answers k).handle) = s.mapped :=
      List.eraseP_of_forall_not (hnone _)
    exact { h.touch with mapped := herase.trans h.mapped }

theorem MappedTo.mapLoop (hfresh : ∀ m ∈ s₀.mapped, m.hostAddr.area < s₀.areas) {n k : Nat}
    (h : MappedTo b req s₀ k k s) (hk : ∀ i < k, (req.answers i).maps = true) :
    ∃ t err, s.mapLoop b req n k = (t, err) ∧
      ((∀ i < k + n, (req.answers i).maps = true) ∧ err = 0 ∧
          MappedTo b req s₀ (k + n) (k + n) t ∨
        ∃ m < k + n, (∀ i < m, (req.answers i).maps = true) ∧ (req.answers m).maps = false ∧
          err ≠ 0 ∧ MappedTo b req s₀ m (m + 1) t) := by
  induction n generalizing k s with
  | zero => exact ⟨s, 0, rfl, .inl ⟨hk, rfl, h⟩⟩
  | succ n ih =>
    cases hpage : (req.answers k).maps with
    | true =>
      obtain ⟨t, ht, hmapped⟩ := h.mapPage_maps hpage
      have hk' : ∀ i < k + 1, (req.answers i).maps = true := by
        intro i hi
        rcases Nat.lt_succ_iff_lt_or_eq.mp hi with hi | rfl
        · exact hk i hi
        · exact hpage
      obtain ⟨u, err, hu, hloop⟩ := ih hmapped hk'
      refine ⟨u, err, ?_, ?_⟩
      · rw [State.mapLoop, ht]
        exact hu
      · rwa [show k + (n + 1) = k + 1 + n by omega]
    | false =>
      obtain ⟨t, err, ht, herr, hmapped⟩ := h.mapPage_fails hfresh hpage
      refine ⟨t, err, ?_, .inr ⟨k, by omega, hk, hpage, herr, hmapped⟩⟩
      rw [State.mapLoop, ht]

end Mapping

section Unmapping
variable {b : BackEnd} {s₀ s : State}

/-- The loop of `xen_chrbk_unmap` entered in `s₀` has gone through `c` pages. -/
structure UnmappedTo (b : BackEnd) (s₀ : State) (c : Nat) (s : State) : Prop where
  mapped : s.mapped = s₀.mapped.drop c
  stray : s.stray = (s₀.stray || decide (s₀.mapped.length < c))
  outOfBounds : s.outOfBounds = (s₀.outOfBounds || decide (b.bound < c))
  mapPages : s.mapPages = s₀.mapPages
  pagesHandle : s.pagesHandle = s₀.pagesHandle
  areas : s.areas = s₀.areas
  oops : s.oops = s₀.oops

theorem UnmappedTo.zero : UnmappedTo b s₀ 0 s₀ := by
  constructor <;> simp

theorem UnmappedTo.unmapPage {c : Nat} (h : UnmappedTo b s₀ c s)
    (hmapped : ∀ i, ∀ hi : i < s₀.mapped.length,
      s₀.mapped[i].isAt (s₀.mapPages i) (s₀.pagesHandle i) = true) :
    UnmappedTo b s₀ (c + 1) (s.unmapPage b c) := by
  have hstray : (s.stray || !s.mapped.any (Mapping.isAt (s.mapPages c) (s.pagesHandle c))) =
      (s₀.stray || decide (s₀.mapped.length < c + 1)) ∧
      s.mapped.eraseP (Mapping.isAt (s.mapPages c) (s.pagesHandle c)) =
        s₀.mapped.drop (c + 1) := by
    rw [h.mapped, h.stray, h.mapPages, h.pagesHandle]
    rcases Nat.lt_or_ge c s₀.mapped.length with hc | hc
    · rw [List.drop_eq_getElem_cons hc, List.any_cons, List.eraseP_cons_of_pos (hmapped c hc),
        hmapped c hc]
      simp [Nat.not_lt.mpr (Nat.le_of_lt hc), Nat.not_lt.mpr (Nat.succ_le_of_lt hc)]
    · simp [List.drop_eq_nil_of_le hc, List.drop_eq_nil_of_le (Nat.le_succ_of_le hc),
        Nat.lt_succ_of_le hc]
  constructor
  case mapped => exact hstray.2
  case stray => exact hstray.1
  case outOfBounds =>
    show (s.index b c).outOfBounds = _
    rw [index_outOfBounds, h.outOfBounds]
    exact bound_touched _ _ _
  case mapPages => exact h.mapPages
  case pagesHandle => exact h.pagesHandle
  case areas => exact h.areas
  case oops => exact h.oops

theorem UnmappedTo.unmapLoop (hmapped : ∀ i, ∀ hi : i < s₀.mapped.length,
      s₀.mapped[i].isAt (s₀.mapPages i) (s₀.pagesHandle i) = true) {n c : Nat}
    (h : UnmappedTo b s₀ c s) : UnmappedTo b s₀ (c + n) (s.unmapLoop b n c) := by
  induction n generalizing c s with
  | zero => exact h
  | succ n ih =>
    rw [show c + (n + 1) = c + 1 + n by omega]
    exact ih (h.unmapPage hmapped)

end Unmapping

section Step
variable {b : BackEnd} {s t : State}

@[simp] theorem store_mapped (req : Request) : (b.store req s).mapped = s.mapped := by
  cases b <;> rfl

@[simp] theorem store_outOfBounds (req : Request) :
    (b.store req s).outOfBounds = s.outOfBounds := by
  cases b <;> rfl

@[simp] theorem store_oops (req : Request) : (b.store req s).oops = s.oops := by
  cases b <;> rfl

@[simp] theorem store_stray (req : Request) : (b.store req s).stray = s.stray := by
  cases b <;> rfl

@[simp] theorem store_areas (req : Request) : (b.store req s).areas = s.areas := by
  cases b <;> rfl

/-- What every run keeps as long as mapping is all or nothing. -/
structure Mapped (b : BackEnd) (s : State) : Prop where
  allOrNothing : AllOrNothing s
  fits : s.held ≤ b.bound
  fresh : ∀ m ∈ s.mapped, m.hostAddr.area ≤ s.areas

theorem AllOrNothing.length (h : AllOrNothing s) : s.mapped.length = s.held := by
  rw [h.mapped, List.length_map, List.length_range]

theorem step_unmap (hs : Mapped b s) (h : step b s .unmap = some t) :
    (AllOrNothing t ↔ Fits b s .unmap) ∧ (Fits b s .unmap → Mapped b t) := by
  have hlen := hs.allOrNothing.length
  have hloop : UnmappedTo b s (b.unmapCount s) (s.xenChrbkUnmap b) := by
    have hall := UnmappedTo.zero.unmapLoop (b := b) (s := s) (n := b.unmapCount s) fun i hi => by
      simp [hs.allOrNothing.mapped, Mapping.isAt]
    rwa [Nat.zero_add] at hall
  obtain rfl : { s.xenChrbkUnmap b with held := 0, recorded := [] } = t := Option.some.inj h
  have hfits : Fits b s .unmap → Mapped b { s.xenChrbkUnmap b with held := 0, recorded := [] } := by
    intro hcount
    have hcount : b.unmapCount s = s.held := hcount
    have hnil : (s.xenChrbkUnmap b).mapped = [] := by
      rw [hloop.mapped, List.drop_eq_nil_iff]
      omega
    constructor
    case allOrNothing =>
      constructor
      case mapped => exact hnil
      case recorded => rfl
      case inBounds =>
        have hle := hs.fits
        simp [hloop.outOfBounds, hs.allOrNothing.inBounds, hcount, hle]
      case noOops => exact hloop.oops.trans hs.allOrNothing.noOops
      case once => simp [hloop.stray, hs.allOrNothing.once, hlen, hcount]
    case fits => exact Nat.zero_le _
    case fresh =>
      intro m hm
      rw [hnil] at hm
      exact absurd hm List.not_mem_nil
  refine ⟨⟨fun ht => ?_, fun hcount => (hfits hcount).allOrNothing⟩, hfits⟩
  have hnil : (s.xenChrbkUnmap b).mapped = [] := ht.mapped
  have hstray : (s.xenChrbkUnmap b).stray = false := ht.once
  rw [hloop.mapped, List.drop_eq_nil_iff] at hnil
  rw [hloop.stray, hs.allOrNothing.once, Bool.false_or, decide_eq_false_iff_not] at hstray
  show b.unmapCount s = s.held
  omega

def entry (b : BackEnd) (req : Request) (s : State) : State :=
  { b.store req s with
    recorded := [], grefs := req.opGref, areas := if req.area then s.areas + 1 else s.areas }

theorem le_entry_areas (req : Request) : s.areas ≤ (entry b req s).areas := by
  simp only [entry]
  split <;> omega

/-- Lengths decide: what was mapped before and what this MAP mapped must be what it holds. -/
theorem MappedTo.allOrNothing_iff {req : Request} {k j : Nat} (hs : Mapped b s)
    (h : MappedTo b req (entry b req s) k j t) (n : Nat) :
    AllOrNothing { t with held := n } ↔ s.held = 0 ∧ k = n ∧ j ≤ b.bound := by
  have hmapped :
      t.mapped = s.mapped ++ (List.range k).map (req.mapping (entry b req s).areas) := by
    rw [h.mapped]
    simp [entry]
  have hrecorded : t.recorded = (List.range k).map fun i => (req.answers i).handle := by
    rw [h.recorded]
    simp [entry]
  have hbounds : t.outOfBounds = decide (b.bound < j) := by
    rw [h.outOfBounds]
    simp [entry, hs.allOrNothing.inBounds]
  constructor
  · intro ht
    have hk : k = n := by simpa [hrecorded] using congrArg List.length ht.recorded
    have hlen : s.held + k = n := by
      simpa [hmapped, hs.allOrNothing.length] using ht.length
    have hj : ¬ b.bound < j := by
      have hin : t.outOfBounds = false := ht.inBounds
      rwa [hbounds, decide_eq_false_iff_not] at hin
    omega
  · rintro ⟨hheld, rfl, hj⟩
    have hnil : s.mapped = [] := by
      rw [← List.length_eq_zero_iff, hs.allOrNothing.length, hheld]
    constructor
    case mapped =>
      show t.mapped = _
      rw [hmapped, hnil, List.nil_append]
      refine List.map_congr_left fun i hi => ?_
      have hi := List.mem_range.mp hi
      simp [Request.mapping, h.mapPages i hi, h.pagesHandle i hi, h.grefs, entry]
    case recorded =>
      show t.recorded = _
      rw [hrecorded]
      exact List.map_congr_left fun i hi => (h.pagesHandle i (List.mem_range.mp hi)).symm
    case inBounds => exact hbounds.trans (decide_eq_false (Nat.not_lt.mpr hj))
    case noOops =>
      show t.oops = false
      rw [h.oops]
      simpa [entry] using hs.allOrNothing.noOops
    case once =>
      show t.stray = false
      rw [h.stray]
      simpa [entry] using hs.allOrNothing.once

theorem MappedTo.keeps {req : Request} {k j n : Nat} (hs : Mapped b s)
    (h : MappedTo b req (entry b req s) k j t) (hkj : k ≤ j)
    (ht : AllOrNothing { t with held := n }) : Mapped b { t with held := n } := by
  obtain ⟨hheld, rfl, hj⟩ := (h.allOrNothing_iff hs n).mp ht
  refine ⟨ht, Nat.le_trans hkj hj, ?_⟩
  intro m hm
  have hm : m ∈ t.mapped := hm
  rw [h.mapped, List.mem_append, List.mem_map] at hm
  show m.hostAddr.area ≤ t.areas
  rw [h.areas]
  rcases hm with hm | ⟨i, -, rfl⟩
  · exact Nat.le_trans (hs.fresh m (by simpa [entry] using hm)) (le_entry_areas req)
  · exact Nat.le_refl _

theorem step_map {req : Request} (hs : Mapped b s) (h : step b s (.map req) = some t) :
    (AllOrNothing t ↔ Fits b s (.map req)) ∧ (AllOrNothing t → Mapped b t) := by
  cases harea : req.area with
  | true =>
    have hfresh : ∀ m ∈ (entry b req s).mapped, m.hostAddr.area < (entry b req s).areas := by
      intro m hm
      have hle := hs.fresh m (by simpa [entry] using hm)
      simp only [entry, harea, if_true]
      omega
    have hzero : MappedTo b req (entry b req s) 0 0 (entry b req s) := .zero
    obtain ⟨u, err, hu, hcases⟩ := hzero.mapLoop hfresh (n := b.count req)
      fun i hi => absurd hi (Nat.not_lt_zero i)
    rw [Nat.zero_add] at hcases
    have hmap : s.xenChrbkMap b req = (u, err) := by
      rw [← hu]
      simp [State.xenChrbkMap, entry, harea]
    have ht : { u with held := if err = 0 then b.count req else 0 } = t := by
      rw [step, hmap] at h
      exact Option.some.inj h
    subst ht
    rcases hcases with ⟨hall, herr, hto⟩ | ⟨m, hm, hbefore, hfails, herr, hto⟩
    · rw [if_pos herr]
      refine ⟨?_, hto.keeps hs (Nat.le_refl _)⟩
      rw [hto.allOrNothing_iff hs]
      simp only [Fits, harea, true_and]
      constructor
      · rintro ⟨hheld, hle⟩
        refine ⟨hheld, ?_⟩
        rcases Nat.eq_zero_or_pos (b.count req) with hzero | hpos
        · exact .inl hzero
        · exact .inr ⟨Nat.lt_of_lt_of_le hpos hle, .inr ⟨hle, hall⟩⟩
      · rintro ⟨hheld, hzero | ⟨hpos, hfirst | ⟨hle, -⟩⟩⟩
        · exact ⟨hheld, by omega⟩
        · have hcount : b.count req = 0 := by
            by_contra hne
            simp [hall 0 (Nat.pos_of_ne_zero hne)] at hfirst
          exact ⟨hheld, by omega⟩
        · exact ⟨hheld, hle⟩
    · rw [if_neg herr]
      refine ⟨?_, hto.keeps hs (Nat.le_succ m)⟩
      rw [hto.allOrNothing_iff hs]
      simp only [Fits, harea, true_and]
      constructor
      · rintro ⟨hheld, rfl, hle⟩
        exact ⟨hheld, .inr ⟨hle, .inl hfails⟩⟩
      · rintro ⟨hheld, hzero | ⟨hpos, hfirst | ⟨-, hall⟩⟩⟩
        · omega
        · have hm0 : m = 0 := by
            by_contra hne
            simp [hbefore 0 (Nat.pos_of_ne_zero hne)] at hfirst
          subst hm0
          exact ⟨hheld, rfl, hpos⟩
        · simp [hall m hm] at hfails
  | false =>
    by_cases hcount : b.count req = 0
    · have hto : MappedTo b req (entry b req s) 0 0 (entry b req s) := .zero
      have ht : { entry b req s with held := 0 } = t := by
        simp only [step, State.xenChrbkMap, harea, hcount] at h
        rw [← Option.some.inj h]
        cases b <;> simp [entry, harea]
      subst ht
      refine ⟨?_, hto.keeps hs (Nat.le_refl 0)⟩
      rw [hto.allOrNothing_iff hs]
      simp [Fits, hcount]
    · have hoops : t.oops = true := by
        simp only [step, State.xenChrbkMap, harea, if_neg hcount] at h
        obtain rfl := Option.some.inj h
        rfl
      have hnot : ¬ AllOrNothing t := by
        intro ht
        simp [ht.noOops] at hoops
      simp [hnot, Fits, harea, hcount]

theorem step_spec {l : Label} (hs : Mapped b s) (h : step b s l = some t) :
    (AllOrNothing t ↔ Fits b s l) ∧ (AllOrNothing t → Mapped b t) := by
  cases l with
  | map req => exact step_map hs h
  | unmap =>
    obtain ⟨hiff, hkeeps⟩ := step_unmap hs h
    exact ⟨hiff, fun ht => hkeeps (hiff.mp ht)⟩

theorem mapPage_areas (req : Request) (i : Nat) : (s.mapPage b req i).1.areas = s.areas := by
  simp only [State.mapPage]
  split
  · rfl
  · split <;> rfl

theorem mapLoop_areas (req : Request) (n i : Nat) :
    (s.mapLoop b req n i).1.areas = s.areas := by
  induction n generalizing i s with
  | zero => rfl
  | succ n ih =>
    have hpage := mapPage_areas (b := b) (s := s) req i
    rw [State.mapLoop]
    split
    · next h => rwa [h] at hpage
    · next h =>
      rw [h] at hpage
      rw [ih]
      exact hpage

theorem unmapLoop_areas (n i : Nat) : (s.unmapLoop b n i).areas = s.areas := by
  induction n generalizing i s with
  | zero => rfl
  | succ n ih => exact ih (i + 1)

theorem step_areas {l : Label} (h : step b s l = some t) :
    t.areas = s.areas + if l.allocates then 1 else 0 := by
  cases l with
  | map req =>
    rw [← Option.some.inj h]
    show (s.xenChrbkMap b req).1.areas = s.areas + if req.area then 1 else 0
    rw [State.xenChrbkMap]
    cases req.area with
    | true => simp [mapLoop_areas]
    | false =>
      by_cases hcount : b.count req = 0
      · simp [hcount]
      · simp [hcount]
  | unmap =>
    rw [← Option.some.inj h]
    exact unmapLoop_areas _ _

theorem exec_areas {ls : List Label} (h : exec (step b) s ls = some t) :
    t.areas = s.areas + (ls.filter Label.allocates).length := by
  induction ls generalizing s with
  | nil =>
    cases h
    rfl
  | cons l ls ih =>
    obtain ⟨m, hm, hrest⟩ := (exec_cons_eq_some (step b)).mp h
    rw [ih hrest, step_areas hm, List.filter_cons]
    cases l.allocates <;> simp [Nat.add_comm, Nat.add_left_comm]

end Step

theorem mapped_start (b : BackEnd) (pagesHandle : Nat → Nat) (nrPages : Int) :
    Mapped b (start pagesHandle nrPages) where
  allOrNothing := ⟨rfl, rfl, rfl, rfl, rfl⟩
  fits := Nat.zero_le _
  fresh _ hm := absurd hm List.not_mem_nil

/-- Requests are mapped all or nothing, within the arrays and with every unmap exact, in exactly
the runs all of whose steps fit. Every area that a MAP gets stays allocated in any run. -/
theorem grants_all_or_nothing_iff (b : BackEnd) (pagesHandle : Nat → Nat) (nrPages : Int)
    (ls : List Label) :
    (Along (step b) (Fits b) (start pagesHandle nrPages) ls ↔
      ∀ ms, ms <+: ls → ∀ s, exec (step b) (start pagesHandle nrPages) ms = some s →
        AllOrNothing s) ∧
    ∃ s, exec (step b) (start pagesHandle nrPages) ls = some s ∧
      s.areas = (ls.filter Label.allocates).length := by
  constructor
  · apply along_iff_always (I := Mapped b) (step_total b)
    · intro s l t hs hl h
      exact (step_spec hs h).2 ((step_spec hs h).1.mpr hl)
    · exact fun hs => hs.allOrNothing
    · intro s l t hs hl h ht
      exact hl ((step_spec hs h).1.mp ht)
    · exact mapped_start b pagesHandle nrPages
  · obtain ⟨s, hs⟩ := exec_total (step_total b) (start pagesHandle nrPages) ls
    refine ⟨s, hs, ?_⟩
    rw [exec_areas hs]
    exact Nat.zero_add _

def refused : Request where
  nrPages := 12
  count := 12
  opGref i := i
  area := true
  answers i := ⟨i = 3, 0, i⟩

def oversized : Request where
  nrPages := 12
  count := 12
  opGref i := i
  area := true
  answers i := ⟨false, 0, i⟩

/-- The pages before the refused one stay mapped, and an eleventh page of a `Dom0` request
is beyond `op_gref`. -/
theorem refused_page_stays_mapped :
    (exec (step .netDom0) (start (fun _ => 0) 0) [.map refused]).map
      (fun s => (s.held, s.mapped.map Mapping.gref)) = some (0, [0, 1, 2]) ∧
    (exec (step (.dom0 65536)) (start (fun _ => 0) 0) [.map oversized]).map
      (fun s => s.outOfBounds) = some true := by
  constructor <;> rfl

end PdmaXen.Grants
