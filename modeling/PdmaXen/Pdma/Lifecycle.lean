import PdmaXen.Pdma.Pci

/-!
# The PCI life cycle, proved

Each entry point moves the ledger by a fixed set of resources, or leaves it as
it was when it fails. The callbacks in between tear the card down and set it up
again, so a run is settled exactly when they do so in turn.
-/

namespace PdmaXen.Pdma.Pci
set_option autoImplicit false
open Ledger

/-! ## What the kernel accepts -/

def IrqAnswers.accepted (a : IrqAnswers) : Bool :=
  a.msiCap && a.enableMsi == 0 && (List.range irqUsedNr).all fun i => a.requestIrq i == 0

def SetupAnswers.accepted (a : SetupAnswers) : Bool :=
  a.enableDevice == 0 && a.requestRegions == 0 && (a.dmaMask64 == 0 || a.dmaMask32 == 0) &&
    a.iomap && a.irq.accepted

/-! ## Interrupts and setup -/

def irqRes : Finset Res := insert .msi (block .irq 0 irqUsedNr)

def setupRes : Finset Res := {.device, .regions, .bar} ∪ irqRes

def Res.ofSetup : Res → Bool
  | .device | .regions | .bar | .msi | .irq _ => true
  | _ => false

theorem disjoint_of_kind {kind : Res → Bool} {L S : Finset Res} (hL : ∀ r ∈ L, kind r = false)
    (hS : ∀ r ∈ S, kind r = true) : Disjoint L S := by
  rw [Finset.disjoint_left]
  intro r hr hs
  have htrue := hS r hs
  rw [hL r hr] at htrue
  cases htrue

theorem irq_injective : Function.Injective Res.irq := fun _ _ h => Res.irq.inj h

variable {L : Finset Res}

theorem wp_pciInstallIrq (a : IrqAnswers) (hmsi : .msi ∉ L) (hirqL : ∀ i, .irq i ∉ L) :
    wp L (pciInstallIrq a) fun ret kept =>
      (ret = 0 ↔ a.accepted) ∧ kept = if a.accepted then L ∪ irqRes else L := by
  have hirq : ∀ i, 0 ≤ i → .irq i ∉ insert Res.msi L := by
    intro i _ h
    rcases Finset.mem_insert.mp h with h | h
    · cases h
    · exact hirqL i h
  have hall := acquireUpTo_eq_iff Res.irq (fun i => a.requestIrq i == 0) 0 irqUsedNr
  have hstop := acquireUpTo_stop Res.irq (fun i => a.requestIrq i == 0) 0 irqUsedNr
  have hloop := lands_acquireUpTo irq_injective (fun i => a.requestIrq i == 0) 0 irqUsedNr hirq
  have hle := (acquireUpTo_le Res.irq (fun i => a.requestIrq i == 0) 0 irqUsedNr).2
  unfold pciInstallIrq
  split
  case isFalse hcap => simp [IrqAnswers.accepted, hcap, enodev]
  case isTrue hcap =>
    split
    case isTrue hmsi0 => simp [IrqAnswers.accepted, hmsi0, enodev]
    case isFalse hmsi0 =>
      simp only [wp_bind, wp_acquire]
      refine ⟨hmsi, ?_⟩
      rw [hloop.wp_iff]
      generalize (acquireUpTo Res.irq (fun i => a.requestIrq i == 0) 0 irqUsedNr).result = i at *
      have hacc : a.accepted ↔ i = irqUsedNr := by
        rw [← Nat.zero_add irqUsedNr, hall]
        simp [IrqAnswers.accepted, hcap, Decidable.not_not.mp hmsi0]
      split
      case isTrue hlt =>
        have hne : a.requestIrq i ≠ 0 := by simpa using hstop (by omega)
        have hfree := lands_releaseBlock irq_injective
          (Finset.subset_union_right : block Res.irq 0 i ⊆ insert .msi L ∪ block Res.irq 0 i)
        rw [Finset.union_sdiff_cancel_right (disjoint_block fun j => hirq j (Nat.zero_le j))] at hfree
        rw [if_neg (by rw [hacc]; omega), wp_bind, freeIrqs, hfree.wp_iff]
        simp [hne, hacc, hlt.ne, hmsi]
      case isFalse hlt =>
        obtain rfl : i = irqUsedNr := by omega
        simp [hacc, irqRes, Finset.insert_union, Finset.union_insert]

theorem wp_pcieSetup (a : SetupAnswers) (hL : ∀ r ∈ L, r.ofSetup = false) :
    wp L (pcieSetup a) fun ret kept =>
      (ret = 0 ↔ a.accepted) ∧ kept = if a.accepted then L ∪ setupRes else L := by
  have hdevice : .device ∉ L := fun h => nomatch hL _ h
  have hregions : .regions ∉ L := fun h => nomatch hL _ h
  have hbar : .bar ∉ L := fun h => nomatch hL _ h
  have hmsi : .msi ∉ L := fun h => nomatch hL _ h
  have hirq : ∀ i, .irq i ∉ L := fun i h => nomatch hL _ h
  unfold pcieSetup
  split
  case isTrue h => simp [SetupAnswers.accepted, h]
  case isFalse h =>
    simp only [wp_bind, wp_acquire]
    refine ⟨hdevice, ?_⟩
    split
    case isTrue h2 => simp [SetupAnswers.accepted, exit2, h2, hdevice]
    case isFalse h2 =>
      simp only [wp_bind, wp_acquire]
      refine ⟨by simp [hregions], ?_⟩
      split
      case isTrue h3 => simp [SetupAnswers.accepted, exit2, exit3, h3, hdevice, hregions]
      case isFalse h3 =>
        split
        case isTrue h4 =>
          have h4' : a.iomap = false := by simpa using h4
          simp [SetupAnswers.accepted, exit2, exit3, h4', enomem, hdevice, hregions]
        case isFalse h4 =>
          have h4' : a.iomap = true := by simpa using h4
          simp only [wp_bind, wp_acquire]
          refine ⟨by simp [hbar], ?_⟩
          have hacc : a.accepted = a.irq.accepted := by
            have hmask : (a.dmaMask64 == 0 || a.dmaMask32 == 0) = true := by
              by_contra hmask
              exact h3 (by simpa using hmask)
            simp [SetupAnswers.accepted, Decidable.not_not.mp h, Decidable.not_not.mp h2, hmask, h4']
          obtain ⟨hret, hirqs⟩ := wp_spec (wp_pciInstallIrq a.irq
            (L := insert .bar (insert .regions (insert .device L))) (by simp [hmsi]) (by simp [hirq]))
          rw [hirqs, hacc]
          cases hyes : a.irq.accepted with
          | false =>
            have h5 : (pciInstallIrq a.irq).result ≠ 0 := by simp [hret, hyes]
            simp [exit2, exit3, exit4, h5, hdevice, hregions, hbar]
          | true =>
            have h5 : (pciInstallIrq a.irq).result = 0 := hret.mpr hyes
            simp only [h5, ne_eq, not_true, if_false, if_true, wp_pure, true_and]
            ext r
            simp only [setupRes, Finset.mem_union, Finset.mem_insert, Finset.mem_singleton]
            tauto

theorem lands_pcieCleanup (hL : setupRes ⊆ L) : Lands L pcieCleanup (L \ setupRes) := by
  have hmem : ∀ r ∈ setupRes, r ∈ L := fun r hr => hL hr
  have hirqL : block Res.irq 0 irqUsedNr ⊆ L :=
    fun r hr => hL (by simp only [setupRes, irqRes, Finset.mem_union, Finset.mem_insert, hr, or_true])
  have hirqs := lands_releaseBlock irq_injective hirqL
  unfold Lands pcieCleanup pciUnstallIrq
  simp only [wp_bind, freeIrqs]
  rw [hirqs.wp_iff]
  have hset : ((((L \ block Res.irq 0 irqUsedNr).erase .msi).erase .bar).erase .regions).erase
      .device = L \ setupRes := by
    ext r
    simp only [setupRes, irqRes, Finset.mem_erase, Finset.mem_sdiff, Finset.mem_union,
      Finset.mem_insert, Finset.mem_singleton]
    tauto
  have hdevice : .device ∈ L := hmem _ (by simp [setupRes])
  have hregions : .regions ∈ L := hmem _ (by simp [setupRes])
  have hbar : .bar ∈ L := hmem _ (by simp [setupRes])
  have hmsi : .msi ∈ L := hmem _ (by simp [setupRes, irqRes])
  simp only [wp_release, hset]
  simp [hdevice, hregions, hbar, hmsi]

theorem ofSetup_of_mem_setupRes {r : Res} (h : r ∈ setupRes) : r.ofSetup = true := by
  simp only [setupRes, irqRes, Finset.mem_union, Finset.mem_insert, Finset.mem_singleton,
    mem_block] at h
  rcases h with (rfl | rfl | rfl) | rfl | ⟨i, _, rfl⟩ <;> rfl

theorem lands_pcieCleanup_union (hL : ∀ r ∈ L, r.ofSetup = false) :
    Lands (L ∪ setupRes) pcieCleanup L := by
  have hdisj := disjoint_of_kind hL fun r hr => ofSetup_of_mem_setupRes hr
  have hclean := lands_pcieCleanup (Finset.subset_union_right : setupRes ⊆ L ∪ setupRes)
  rwa [Finset.union_sdiff_cancel_right hdisj] at hclean

/-! ## Register access -/

theorem lands_pollReg (hbar : .bar ∈ L) (done : BitVec 32 → Bool) (reads : Nat → BitVec 32)
    (i left : Nat) : Lands L (pollReg done reads i left) L := by
  induction left generalizing i with
  | zero => simp [Lands, pollReg, hbar]
  | succ left ih =>
    unfold Lands pollReg
    simp only [wp_bind, wp_use, hbar, true_and]
    split
    · simp
    · exact ih (i + 1)

theorem lands_pcieDmaReset (hbar : .bar ∈ L) (a : ResetAnswers) :
    Lands L (pcieDmaReset a) L := by
  unfold Lands pcieDmaReset
  simp only [wp_bind, wp_use, hbar, true_and, (lands_pollReg hbar _ _ _ _).wp_iff]
  split
  · simp
  · simp [hbar, (lands_pollReg hbar _ _ _ _).wp_iff]

theorem lands_tryToSubmitRead (hbar : .bar ∈ L) (submitCnt free : Nat) :
    Lands L (tryToSubmitRead submitCnt free) L := by
  induction free generalizing submitCnt with
  | zero => simp [Lands, tryToSubmitRead]
  | succ free ih =>
    unfold Lands tryToSubmitRead
    split
    · simp only [wp_bind, wp_use, hbar, true_and]
      exact ih (submitCnt + 1)
    · simp

theorem lands_dmaStop (hbar : .bar ∈ L) (a : ResetAnswers) (c : Card) :
    Lands L (dmaStop a c) L := by
  simp [Lands, dmaStop, (lands_pcieDmaReset hbar a).wp_iff]

theorem lands_dmaStart (hbar : .bar ∈ L) (stop reset : ResetAnswers) (c : Card) :
    Lands L (dmaStart stop reset c) L := by
  unfold Lands dmaStart
  split <;> simp [(lands_pcieDmaReset hbar _).wp_iff, (lands_dmaStop hbar _ _).wp_iff,
    (lands_tryToSubmitRead hbar _ _).wp_iff]

/-- Without a mapped BAR the first register access of a stop is refused. -/
theorem not_wp_dmaStop (hbar : .bar ∉ L) (a : ResetAnswers) (c : Card)
    {Q : Card × Int → Finset Res → Prop} : ¬ wp L (dmaStop a c) Q := by
  simp [dmaStop, pcieDmaReset, hbar]

theorem not_wp_devExit (hbar : .bar ∉ L) (a : ResetAnswers) (c : Card)
    {Q : Unit → Finset Res → Prop} : ¬ wp L (devExit a c) Q := by
  simp only [devExit, wp_bind, wp_release]
  rintro ⟨_, hstop⟩
  exact not_wp_dmaStop (by simp [hbar]) a c hstop

/-! ## Pools -/

def side (arr : Res) (buf : Nat → Res) : Option Nat → Finset Res
  | none => ∅
  | some k => insert arr (block buf 0 k)

def Card.pool (c : Card) : Finset Res :=
  side .rdArray .rdBuf c.rdBufA ∪ side .wtArray .wtBuf c.wtBufA

structure Card.Sound (c : Card) : Prop where
  rd : ∀ k, c.rdBufA = some k → k ≤ c.rdBufNr.toNatClampNeg
  wt : ∀ k, c.wtBufA = some k → k ≤ c.wtBufNr.toNatClampNeg

def Res.ofPool : Res → Bool
  | .rdArray | .rdBuf _ | .wtArray | .wtBuf _ => true
  | _ => false

def sideAccepted (nr : Int32) (array : Bool) (bufs : Nat → Bool) : Bool :=
  array && 0 < nr && (List.range nr.toNatClampNeg).all bufs

theorem filter_range_lt {k n : Nat} (h : k ≤ n) :
    (List.range n).filter (· < k) = List.range k := by
  obtain ⟨m, rfl⟩ := Nat.exists_eq_add_of_le h
  have hlow : (List.range k).filter (· < k) = List.range k := by
    apply List.filter_eq_self.mpr
    intro i hi
    simpa using hi
  have hhigh : ((List.range m).map (k + ·)).filter (· < k) = [] := by
    apply List.filter_eq_nil_iff.mpr
    intro i hi
    obtain ⟨j, _, rfl⟩ := List.mem_map.mp hi
    simp
  rw [List.range_add, List.filter_append, hlow, hhigh, List.append_nil]

section Side
variable {arr : Res} {buf : Nat → Res}

theorem lands_freeSide (hbuf : Function.Injective buf) (harr : ∀ i, buf i ≠ arr) {nr : Int32}
    {a : Option Nat} (hk : ∀ k, a = some k → k ≤ nr.toNatClampNeg) (hL : side arr buf a ⊆ L) :
    Lands L (freeSide arr buf nr a) (L \ side arr buf a) := by
  cases a with
  | none => simp [Lands, freeSide, side]
  | some k =>
    have hbufs : block buf 0 k ⊆ L := (Finset.subset_insert _ _).trans hL
    have harrL : arr ∈ L := hL (Finset.mem_insert_self _ _)
    unfold Lands freeSide
    rw [wp_bind, filter_range_lt (hk k rfl), (lands_releaseBlock hbuf hbufs).wp_iff, wp_release]
    refine ⟨?_, ?_⟩
    · simpa [harrL] using fun i _ => harr i
    · rw [side, Finset.sdiff_insert]

theorem lands_allocSide (hbuf : Function.Injective buf) (harr : ∀ i, buf i ≠ arr) (nr : Int32)
    (array : Bool) (bufs : Nat → Bool) (harrL : arr ∉ L) (hbufL : ∀ i, buf i ∉ L) :
    Lands L (allocSide arr buf nr array bufs)
      (L ∪ side arr buf (allocSide arr buf nr array bufs).result.1) := by
  unfold Lands allocSide
  split
  · have hfree : ∀ i, 0 ≤ i → buf i ∉ insert arr L := fun i _ => by simp [harr, hbufL]
    have hloop := lands_acquireUpTo hbuf bufs 0 nr.toNatClampNeg hfree
    simp only [wp_bind, wp_acquire, hloop.wp_iff, wp_pure]
    refine ⟨harrL, ?_⟩
    simp [side, Finset.insert_union, Finset.union_insert]
  · simp [side]

theorem allocSide_result (nr : Int32) (array : Bool) (bufs : Nat → Bool) :
    ((allocSide arr buf nr array bufs).result.2 ↔ sideAccepted nr array bufs) ∧
      ∀ k, (allocSide arr buf nr array bufs).result.1 = some k → k ≤ nr.toNatClampNeg := by
  have hle := (acquireUpTo_le buf bufs 0 nr.toNatClampNeg).2
  have hall := acquireUpTo_eq_iff buf bufs 0 nr.toNatClampNeg
  unfold allocSide sideAccepted
  split
  case isTrue h =>
    simp only [Bool.and_eq_true, decide_eq_true_eq] at h
    rw [Nat.zero_add] at hall hle
    simp [hall, h, hle]
  case isFalse h =>
    simp only [Bool.and_eq_true, decide_eq_true_eq] at h
    simp [h]

theorem wp_allocSide (hbuf : Function.Injective buf) (harr : ∀ i, buf i ≠ arr) (nr : Int32)
    (array : Bool) (bufs : Nat → Bool) (harrL : arr ∉ L) (hbufL : ∀ i, buf i ∉ L) :
    wp L (allocSide arr buf nr array bufs) fun r kept =>
      ((r.2 ↔ sideAccepted nr array bufs) ∧ ∀ k, r.1 = some k → k ≤ nr.toNatClampNeg) ∧
        kept = L ∪ side arr buf r.1 := by
  rw [(lands_allocSide hbuf harr nr array bufs harrL hbufL).wp_iff]
  exact ⟨allocSide_result nr array bufs, rfl⟩

end Side

theorem rdBuf_injective : Function.Injective Res.rdBuf := fun _ _ h => Res.rdBuf.inj h
theorem wtBuf_injective : Function.Injective Res.wtBuf := fun _ _ h => Res.wtBuf.inj h

theorem mem_side {arr : Res} {buf : Nat → Res} {a : Option Nat} {r : Res}
    (h : r ∈ side arr buf a) : r = arr ∨ ∃ i, r = buf i := by
  cases a with
  | none => cases h
  | some k =>
    rcases Finset.mem_insert.mp h with rfl | h
    · exact Or.inl rfl
    · obtain ⟨i, _, rfl⟩ := mem_block.mp h
      exact Or.inr ⟨i, rfl⟩

theorem disjoint_sides (a b : Option Nat) :
    Disjoint (side .rdArray .rdBuf a) (side .wtArray .wtBuf b) := by
  rw [Finset.disjoint_left]
  intro r hr hw
  obtain rfl | ⟨i, rfl⟩ := mem_side hr
  · obtain h | ⟨j, h⟩ := mem_side hw <;> cases h
  · obtain h | ⟨j, h⟩ := mem_side hw <;> cases h

theorem ofPool_of_mem_pool {c : Card} {r : Res} (h : r ∈ c.pool) : r.ofPool = true := by
  rcases Finset.mem_union.mp h with h | h
  · obtain rfl | ⟨i, rfl⟩ := mem_side h <;> rfl
  · obtain rfl | ⟨i, rfl⟩ := mem_side h <;> rfl

theorem disjoint_pool (hL : ∀ r ∈ L, r.ofPool = false) (c : Card) : Disjoint L c.pool :=
  disjoint_of_kind hL fun _ hr => ofPool_of_mem_pool hr

theorem lands_devFreePool {c : Card} (hc : c.Sound) (hL : c.pool ⊆ L) :
    Lands L (devFreePool c) (L \ c.pool) := by
  have hrdL : side .rdArray .rdBuf c.rdBufA ⊆ L := Finset.union_subset_left hL
  have hrd := lands_freeSide rdBuf_injective (fun i => by simp) hc.rd hrdL
  have hwtL : side .wtArray .wtBuf c.wtBufA ⊆ L \ side .rdArray .rdBuf c.rdBufA := by
    rw [Finset.subset_sdiff]
    exact ⟨Finset.union_subset_right hL, (disjoint_sides _ _).symm⟩
  have hwt := lands_freeSide wtBuf_injective (fun i => by simp) hc.wt hwtL
  unfold Lands devFreePool
  rw [wp_bind, hrd.wp_iff, hwt.wp_iff, Card.pool, Finset.sdiff_union_distrib,
    Finset.sdiff_sdiff_left']

theorem lands_devFreePool_union {c : Card} (hc : c.Sound) (hL : ∀ r ∈ L, r.ofPool = false) :
    Lands (L ∪ c.pool) (devFreePool c) L := by
  have hfree := lands_devFreePool hc (Finset.subset_union_right : c.pool ⊆ L ∪ c.pool)
  rwa [Finset.union_sdiff_cancel_right (disjoint_pool hL c)] at hfree

def poolAccepted (a : InitAnswers) (c : Card) : Bool :=
  sideAccepted c.rdBufNr a.rdArray a.rdBuf && sideAccepted c.wtBufNr a.wtArray a.wtBuf

theorem wp_devAllocPool (a : InitAnswers) {c : Card} (hwt : c.wtBufA = none)
    (hL : ∀ r ∈ L, r.ofPool = false) :
    wp L (devAllocPool a c) fun r kept =>
      ((r.2 = 0 ↔ poolAccepted a c) ∧ r.1.Sound ∧ r.1.rdBufSize = c.rdBufSize) ∧
        kept = if poolAccepted a c then L ∪ r.1.pool else L := by
  have hfresh : ∀ r, r.ofPool = true → r ∉ L := by
    intro r hr hin
    rw [hL r hin] at hr
    cases hr
  unfold devAllocPool
  rw [wp_bind]
  refine wp_mono (wp_allocSide rdBuf_injective (fun i => by simp) _ _ _ (hfresh _ rfl)
    fun i => hfresh _ rfl) ?_
  rintro rd _ ⟨⟨hrd, hrdle⟩, rfl⟩
  split
  case isTrue hno =>
    have hacc : sideAccepted c.rdBufNr a.rdArray a.rdBuf = false := by
      simpa [← Bool.not_eq_true, ← hrd] using hno
    have hpool : ({ c with rdBufA := rd.1 } : Card).pool = side .rdArray .rdBuf rd.1 := by
      simp [Card.pool, hwt, side]
    have hsound : ({ c with rdBufA := rd.1 } : Card).Sound :=
      ⟨hrdle, fun k hk => by simp [hwt] at hk⟩
    have hfree := lands_devFreePool_union hsound hL
    rw [hpool] at hfree
    rw [wp_bind, hfree.wp_iff]
    simp [poolAccepted, hacc, hsound, enomem]
  case isFalse hyes =>
    have hacc : sideAccepted c.rdBufNr a.rdArray a.rdBuf = true := by
      simpa [← hrd] using hyes
    have hrdfresh : ∀ r, r ≠ .rdArray → (∀ i, r ≠ .rdBuf i) → r.ofPool = true →
        r ∉ L ∪ side .rdArray .rdBuf rd.1 := by
      intro r hne hneBuf hr hin
      rcases Finset.mem_union.mp hin with h | h
      · exact hfresh r hr h
      · obtain h | ⟨i, h⟩ := mem_side h
        · exact hne h
        · exact hneBuf i h
    rw [wp_bind]
    refine wp_mono (wp_allocSide wtBuf_injective (fun i => by simp) _ _ _
      (hrdfresh _ (by simp) (by simp) rfl) fun i => hrdfresh _ (by simp) (by simp) rfl) ?_
    rintro wt _ ⟨⟨hwtok, hwtle⟩, rfl⟩
    have hsound : ({ c with rdBufA := rd.1, wtBufA := wt.1 } : Card).Sound := ⟨hrdle, hwtle⟩
    rw [Finset.union_assoc]
    split
    case isTrue hno =>
      have hwtacc : sideAccepted c.wtBufNr a.wtArray a.wtBuf = false := by
        simpa [← Bool.not_eq_true, ← hwtok] using hno
      have hfree := lands_devFreePool_union hsound hL
      rw [wp_bind]
      refine hfree.wp_iff.mpr ?_
      simp [poolAccepted, hwtacc, hsound, enomem]
    case isFalse hyes =>
      have hwtacc : sideAccepted c.wtBufNr a.wtArray a.wtBuf = true := by
        simpa [← hwtok] using hyes
      simp [poolAccepted, hacc, hwtacc, hsound, Card.pool]

/-! ## Entry points -/

def sizeLegal (size : UInt32) : Bool :=
  !(size == 0 || size % 4096 != 0 || size > 1024 * 1024)

def InitAnswers.accepted (a : InitAnswers) : Bool :=
  let parsed := inputCheckAndParse a {}
  parsed.2 == 0 && poolAccepted a parsed.1 && sizeLegal parsed.1.rdBufSize.toUInt32 &&
    a.minorIdx < a.maxDev && a.cdevAdd == 0

theorem wp_pcieConfigRwSize (hbar : .bar ∈ L) (size : UInt32) :
    wp L (pcieConfigRwSize size) fun ret kept => (ret = 0 ↔ sizeLegal size) ∧ kept = L := by
  unfold pcieConfigRwSize sizeLegal
  cases size == 0 || size % 4096 != 0 || decide (size > 1024 * 1024) with
  | true => simp [einval]
  | false => simp [hbar]

theorem wp_devRegister (a : InitAnswers) (hcdev : .cdev ∉ L) :
    wp L (devRegister a) fun ret kept =>
      (ret = 0 ↔ a.minorIdx < a.maxDev ∧ a.cdevAdd = 0) ∧
        kept = if a.minorIdx < a.maxDev ∧ a.cdevAdd = 0 then insert .cdev L else L := by
  unfold devRegister
  split
  case isTrue h => simp [not_lt.mpr h, enospc]
  case isFalse h =>
    have hlt : a.minorIdx < a.maxDev := not_le.mp h
    split
    case isTrue h2 => simp [h2]
    case isFalse h2 => simp [hlt, Decidable.not_not.mp h2, hcdev]

theorem inputCheckAndParse_pools (a : InitAnswers) (c : Card) :
    (inputCheckAndParse a c).1.wtBufA = c.wtBufA := by
  unfold inputCheckAndParse
  dsimp only
  split
  · rfl
  · split <;> rfl

theorem wp_devInit (a : InitAnswers) (hL : ∀ r ∈ L, r.ofPool = false) (hbar : .bar ∈ L)
    (hcdev : .cdev ∉ L) :
    wp L (devInit a {}) fun r kept =>
      ((r.2 = 0 ↔ a.accepted) ∧ (a.accepted → r.1.Sound)) ∧
        kept = if a.accepted then insert .cdev (L ∪ r.1.pool) else L := by
  unfold devInit
  have hwt := inputCheckAndParse_pools a {}
  generalize hparsed : inputCheckAndParse a {} = parsed at *
  simp only
  split
  case isTrue h => simp [InitAnswers.accepted, hparsed, h]
  case isFalse h =>
    rw [wp_bind]
    refine wp_mono (wp_devAllocPool a hwt hL) ?_
    rintro pool _ ⟨⟨hret, hsound, hsize⟩, rfl⟩
    cases hacc : poolAccepted a parsed.1 with
    | false =>
      have h2 : pool.2 ≠ 0 := by simp [hret, hacc]
      simp [InitAnswers.accepted, hparsed, hacc, h2]
    | true =>
      rw [if_neg (not_not.mpr (hret.mpr hacc)), if_pos rfl]
      have hsound' : (devCtrlInit pool.1).Sound := ⟨hsound.rd, hsound.wt⟩
      have hpool : (devCtrlInit pool.1).pool = pool.1.pool := rfl
      have hfree := lands_devFreePool_union hsound' hL
      rw [hpool] at hfree
      rw [wp_bind]
      refine wp_mono (wp_pcieConfigRwSize (Finset.mem_union_left _ hbar) _) ?_
      rintro ret _ ⟨hlegal, rfl⟩
      rw [show (devCtrlInit pool.1).rdBufSize = parsed.1.rdBufSize from hsize] at hlegal
      split
      case isTrue h3 =>
        have hno : sizeLegal parsed.1.rdBufSize.toUInt32 = false := by simpa [hlegal] using h3
        rw [wp_bind]
        refine hfree.wp_iff.mpr ?_
        simp [InitAnswers.accepted, hparsed, hno, h3]
      case isFalse h3 =>
        have hyes := hlegal.mp (Decidable.not_not.mp h3)
        have hcdev' : .cdev ∉ L ∪ pool.1.pool := by
          intro hin
          rcases Finset.mem_union.mp hin with hin | hin
          · exact hcdev hin
          · cases ofPool_of_mem_pool hin
        have hall : a.accepted ↔ a.minorIdx < a.maxDev ∧ a.cdevAdd = 0 := by
          simp [InitAnswers.accepted, hparsed, hacc, hyes, Decidable.not_not.mp h]
        rw [wp_bind]
        refine wp_mono (wp_devRegister a hcdev') ?_
        rintro ret' _ ⟨hreg, rfl⟩
        by_cases hreg' : a.minorIdx < a.maxDev ∧ a.cdevAdd = 0
        · rw [if_pos hreg', if_neg (not_not.mpr (hreg.mpr hreg')), wp_pure, if_pos (hall.mpr hreg')]
          exact ⟨⟨by simp [hall.mpr hreg'], fun _ => hsound'⟩, rfl⟩
        · have h4 : ret' ≠ 0 := fun h => hreg' (hreg.mp h)
          have hno : a.accepted = false := Bool.eq_false_iff.mpr fun h => hreg' (hall.mp h)
          rw [if_neg hreg', if_pos h4, wp_bind]
          refine hfree.wp_iff.mpr ?_
          simp [hno, h4]

theorem lands_devExit (a : ResetAnswers) {c : Card} (hc : c.Sound) (hcdev : .cdev ∈ L)
    (hbar : .bar ∈ L) (hL : c.pool ⊆ L) : Lands L (devExit a c) (L.erase .cdev \ c.pool) := by
  have hpool : c.pool ⊆ L.erase .cdev := by
    intro r hr
    refine Finset.mem_erase.mpr ⟨?_, hL hr⟩
    rintro rfl
    cases ofPool_of_mem_pool hr
  have hbar' : .bar ∈ L.erase Res.cdev := by simp [hbar]
  have hsound : (dmaStop a c).result.1.Sound := ⟨hc.rd, hc.wt⟩
  unfold Lands devExit
  simp only [wp_bind, wp_release, (lands_dmaStop hbar' a c).wp_iff]
  exact ⟨hcdev, lands_devFreePool hsound hpool⟩

/-! ## Phases -/

/-- What a bound driver keeps while the card is torn down. -/
def bound (c : Card) : Finset Res := insert .cdev ({.pcieCtrl, .entity} ∪ c.pool)

/-- What is held while the card is set up, and while it is not. -/
def heldIn (up : Bool) (c : Card) : Finset Res := if up then bound c ∪ setupRes else bound c

theorem ofSetup_of_mem_bound {c : Card} {r : Res} (h : r ∈ bound c) : r.ofSetup = false := by
  simp only [bound, Finset.mem_insert, Finset.mem_union, Finset.mem_singleton] at h
  rcases h with rfl | (rfl | rfl) | h
  · rfl
  · rfl
  · rfl
  · have hpool := ofPool_of_mem_pool h
    cases r <;> first | rfl | cases hpool

theorem bar_notMem_bound (c : Card) : .bar ∉ bound c := by
  intro h
  cases ofSetup_of_mem_bound h

def ProbeAnswers.accepted (a : ProbeAnswers) : Bool :=
  a.entity && a.pcieCtrl && a.setup.accepted && a.init.accepted

theorem wp_pciProbe (a : ProbeAnswers) :
    wp ∅ (pciProbe a) fun r kept =>
      ((r.2 = 0 ↔ a.accepted) ∧ (a.accepted → r.1.Sound)) ∧
        kept = if a.accepted then heldIn true r.1 else ∅ := by
  have hbase : ∀ r ∈ ({.pcieCtrl, .entity} : Finset Res), r.ofSetup = false := by decide
  unfold pciProbe
  cases hent : a.entity with
  | false => simp [ProbeAnswers.accepted, hent, enomem]
  | true =>
    cases hctrl : a.pcieCtrl with
    | false => simp [ProbeAnswers.accepted, hctrl, enomem]
    | true =>
      simp only [Bool.not_true, Bool.false_eq_true, if_false, wp_bind, wp_acquire]
      refine ⟨by simp, by simp, ?_⟩
      refine wp_mono (wp_pcieSetup a.setup hbase) ?_
      rintro ret _ ⟨hret, rfl⟩
      cases hsetup : a.setup.accepted with
      | false =>
        have hne : ret ≠ 0 := by simp [hret, hsetup]
        simp [ProbeAnswers.accepted, hsetup, hne]
      | true =>
        rw [if_neg (not_not.mpr (hret.mpr hsetup)), if_pos rfl, wp_bind]
        have hpool : ∀ r ∈ {.pcieCtrl, .entity} ∪ setupRes, r.ofPool = false := by decide
        have hcdev : .cdev ∉ {.pcieCtrl, .entity} ∪ setupRes := by decide
        refine wp_mono (wp_devInit a.init hpool (by simp [setupRes]) hcdev) ?_
        rintro init _ ⟨⟨hinit, hsound⟩, rfl⟩
        have hacc : a.accepted = a.init.accepted := by
          simp [ProbeAnswers.accepted, hent, hctrl, hsetup]
        rw [hacc]
        cases hok : a.init.accepted with
        | false =>
          have hne : init.2 ≠ 0 := by simp [hinit, hok]
          have hclean := lands_pcieCleanup_union hbase
          rw [if_pos hne, wp_bind]
          refine hclean.wp_iff.mpr ?_
          simp [hne]
        | true =>
          rw [if_neg (not_not.mpr (hinit.mpr hok)), if_pos rfl, wp_pure]
          refine ⟨⟨by simp [hinit, hok], fun _ => hsound hok⟩, ?_⟩
          simp only [heldIn, bound, if_true]
          ext r
          simp only [Finset.mem_insert, Finset.mem_union, Finset.mem_singleton, Finset.notMem_empty]
          tauto

theorem lands_pciRemove (a : ResetAnswers) {c : Card} (hc : c.Sound) :
    Lands (heldIn true c) (pciRemove a c) ∅ := by
  have hpool : c.pool ⊆ heldIn true c := by
    intro r hr
    simp [heldIn, bound, hr]
  have hexit := lands_devExit a hc (by simp [heldIn, bound]) (by simp [heldIn, setupRes]) hpool
  have hmid : (heldIn true c).erase .cdev \ c.pool = {.pcieCtrl, .entity} ∪ setupRes := by
    have hother : ∀ r ∈ ({.pcieCtrl, .entity} ∪ setupRes : Finset Res),
        r ≠ .cdev ∧ r.ofPool = false := by decide
    have hpoolKind : ∀ r ∈ c.pool, r.ofPool = true := fun r => ofPool_of_mem_pool
    ext r
    specialize hother r
    specialize hpoolKind r
    simp only [heldIn, bound, if_true, Finset.mem_sdiff, Finset.mem_erase, Finset.mem_union,
      Finset.mem_insert, Finset.mem_singleton] at *
    grind
  have hbase : ∀ r ∈ ({.pcieCtrl, .entity} : Finset Res), r.ofSetup = false := by decide
  have hclean := lands_pcieCleanup_union hbase
  unfold Lands pciRemove
  rw [wp_bind, hexit.wp_iff, hmid, wp_bind, hclean.wp_iff]
  simp

theorem not_wp_pciRemove (a : ResetAnswers) (c : Card) {Q : Unit → Finset Res → Prop} :
    ¬ wp (heldIn false c) (pciRemove a c) Q := by
  unfold pciRemove
  rw [wp_bind]
  exact not_wp_devExit (bar_notMem_bound c) a c

/-- Whether the card is set up after the callback; `none` when it tears down a
card that is down, or enables a card that is up. -/
def Callback.next (up : Bool) : Callback → Option Bool
  | .errorDetected state _ =>
    if state = .permFailure then some up else if up then some false else none
  | .slotReset a _ _ =>
    if up then if a.enableDevice = 0 then none else some true else some a.accepted
  | .resume => some up

/-- The callbacks tear down and set up in turn and leave the card set up. -/
def recovers (cbs : List Callback) : Prop := cbs.foldlM Callback.next true = some true

instance (cbs : List Callback) : Decidable (recovers cbs) :=
  inferInstanceAs (Decidable (cbs.foldlM Callback.next true = some true))

theorem wp_callback (cb : Callback) {c : Card} (hc : c.Sound) {up up' : Bool}
    (h : cb.next up = some up') :
    wp (heldIn up c) (cb.run c) fun c' kept => c'.Sound ∧ kept = heldIn up' c' := by
  cases cb with
  | resume =>
    obtain rfl := Option.some.inj h
    simpa [Callback.run] using hc
  | errorDetected state a =>
    simp only [Callback.next] at h
    simp only [Callback.run, pciErrorDetected]
    split at h
    case isTrue hperm =>
      obtain rfl := Option.some.inj h
      simpa [hperm] using hc
    case isFalse hperm =>
      cases up with
      | false => cases h
      | true =>
        obtain rfl := Option.some.inj h
        have hstop := lands_dmaStop (L := heldIn true c) (by simp [heldIn, setupRes]) a c
        have hclean := lands_pcieCleanup_union fun r (hr : r ∈ bound c) => ofSetup_of_mem_bound hr
        simp only [hperm, if_false, devExitForPcieError, wp_bind, hstop.wp_iff, wp_pure]
        exact hclean.wp_iff.mpr ⟨⟨hc.rd, hc.wt⟩, rfl⟩
  | slotReset a stop reset =>
    simp only [Callback.next] at h
    simp only [Callback.run, pciSlotReset, wp_bind]
    cases up with
    | true =>
      simp only [if_true] at h
      split at h
      case isTrue => cases h
      case isFalse hdev =>
        obtain rfl := Option.some.inj h
        simpa [pcieSetup, hdev] using hc
    | false =>
      obtain rfl := Option.some.inj h
      refine wp_mono (wp_pcieSetup a fun r hr => ofSetup_of_mem_bound hr) ?_
      rintro ret _ ⟨hret, rfl⟩
      cases hacc : a.accepted with
      | false =>
        have hne : ret ≠ 0 := by simp [hret, hacc]
        simpa [hne] using hc
      | true =>
        have hbar : .bar ∈ heldIn true c := by simp [heldIn, setupRes]
        have hstart := lands_dmaStart hbar stop reset (devCtrlInit c)
        rw [if_neg (not_not.mpr (hret.mpr hacc))]
        simp only [devInitForPcieError, wp_bind]
        refine wp_mono (wp_pcieConfigRwSize hbar _) ?_
        rintro _ _ ⟨_, rfl⟩
        rw [hstart.wp_iff, wp_pure, wp_pure]
        exact ⟨⟨hc.rd, hc.wt⟩, rfl⟩

theorem not_wp_callback (cb : Callback) (c : Card) {up : Bool} (h : cb.next up = none)
    {Q : Card → Finset Res → Prop} : ¬ wp (heldIn up c) (cb.run c) Q := by
  cases cb with
  | resume => cases h
  | errorDetected state a =>
    simp only [Callback.next] at h
    split at h
    case isTrue => cases h
    case isFalse hperm =>
      cases up with
      | true => cases h
      | false =>
        simp only [Callback.run, pciErrorDetected, hperm, if_false, devExitForPcieError, wp_bind]
        exact not_wp_dmaStop (bar_notMem_bound c) a c
  | slotReset a stop reset =>
    simp only [Callback.next] at h
    split at h
    case isFalse => cases h
    case isTrue hup =>
      split at h
      case isFalse => cases h
      case isTrue hdev =>
        simp [Callback.run, pciSlotReset, pcieSetup, hdev, heldIn, hup, setupRes]

theorem wp_runCallbacks_remove (cbs : List Callback) (r : ResetAnswers) {c : Card} (hc : c.Sound)
    (up : Bool) :
    wp (heldIn up c) (runCallbacks c cbs >>= pciRemove r) (fun _ kept => kept = ∅) ↔
      cbs.foldlM Callback.next up = some true := by
  induction cbs generalizing c up with
  | nil =>
    simp only [runCallbacks, wp_bind, wp_pure]
    cases up with
    | true => exact iff_of_true (lands_pciRemove r hc) rfl
    | false => exact iff_of_false (not_wp_pciRemove r c) (by simp)
  | cons cb cbs ih =>
    simp only [runCallbacks, wp_bind, List.foldlM_cons]
    cases hnext : cb.next up with
    | none => exact iff_of_false (not_wp_callback cb c hnext) (by simp)
    | some up' =>
      obtain ⟨hsound, hrun⟩ := wp_spec (wp_callback cb hc hnext)
      rw [hrun]
      exact wp_bind.symm.trans (ih hsound up')

/-- The life cycle is settled exactly when probe fails or the callbacks recover. -/
theorem pci_lifecycle (a : ProbeAnswers) (cbs : List Callback) (r : ResetAnswers) :
    Settled (lifecycle a cbs r).events ↔ (a.accepted → recovers cbs) := by
  obtain ⟨⟨hret, hsound⟩, hprobe⟩ := wp_spec (wp_pciProbe a)
  rw [settled_iff, Lands, lifecycle, wp_bind, hprobe]
  cases hacc : a.accepted with
  | false =>
    have hne : (pciProbe a).result.2 ≠ 0 := by simp [hret, hacc]
    simp [hne]
  | true =>
    rw [if_neg (not_not.mpr (hret.mpr hacc)), if_pos rfl]
    exact (wp_runCallbacks_remove cbs r (hsound hacc) true).trans (by simp [recovers])

/-- A frozen channel, a slot reset that finds the regions busy, and remove: the
stop of `pdma_dev_exit` writes to the unmapped BAR. -/
theorem failed_recovery_not_settled :
    ¬ Settled (lifecycle { init := { block := 4096, pool := 8192 } }
      [.errorDetected .frozen {}, .slotReset { requestRegions := -16 } {} {}] {}).events := by
  decide +kernel

end PdmaXen.Pdma.Pci
