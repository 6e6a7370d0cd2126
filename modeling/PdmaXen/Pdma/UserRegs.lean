import Mathlib.Algebra.Group.Nat.Defs
import Mathlib.Data.Int.Basic
import PdmaXen.Pdma.Device

/-!
# User access to registers

`pdma_pcie_user_read` and `pdma_pcie_user_write`, and `PDMA_IOC_RW_REG` over them. The
range check adds in `unsigned int`, the address of the register is added to a
pointer of 64 bits.
-/

namespace PdmaXen.Pdma
set_option autoImplicit false

def regUserRegion : UInt32 := 256

inductive RegOp where
  | read
  | write (val : UInt32)
deriving DecidableEq

/-- An access of four bytes, `offset` bytes behind `reg_base`. -/
structure RegAccess where
  offset : UInt64
  op : RegOp
deriving DecidableEq

/-- `pcie_ctrl->len`, an `int` made of `pci_resource_len`. -/
def pcieLen (resourceLen : UInt64) : Int32 := resourceLen.toUInt32.toInt32

/-- The checks of both functions, and the access behind them. -/
def pcieUserAccess (len : Int32) (addr : UInt32) (op : RegOp) : Int × List RegAccess :=
  if addr % 4 != 0 then (-einval, [])
  else if addr + regUserRegion >= len.toUInt32 then (-einval, [])
  else (0, [⟨regUserRegion.toUInt64 + addr.toUInt64, op⟩])

/-- `pdma_pcie_user_read`; `*pval` is set to what the register holds. -/
def pcieUserRead (len : Int32) (regs : UInt64 → UInt32) (addr : UInt32) (val : UInt32) :
    (Int × List RegAccess) × UInt32 :=
  let done := pcieUserAccess len addr .read
  (done, done.2.foldl (fun _ x => regs x.offset) val)

def pcieUserWrite (len : Int32) (addr val : UInt32) : Int × List RegAccess :=
  pcieUserAccess len addr (.write val)

structure RwReg where
  type : UInt32
  addr : UInt32
  val : UInt32
deriving DecidableEq

structure IoctlDone where
  ret : Int
  accesses : List RegAccess := []
  copied : Option RwReg := none

/-- `PDMA_IOC_RW_REG` in `pdma_ioctl`; `ctrl` is `none` when `copy_from_user` fails,
`copyOut` answers `copy_to_user`. -/
def ioctlRwReg (len : Int32) (regs : UInt64 → UInt32) (ctrl : Option RwReg) (copyOut : Bool) :
    IoctlDone :=
  match ctrl with
  | none => { ret := -efault }
  | some ctrl =>
    if ctrl.type == 0 then
      let done := pcieUserRead len regs ctrl.addr ctrl.val
      if done.1.1 ≠ 0 then { ret := done.1.1, accesses := done.1.2 }
      else if copyOut then
        { ret := 0, accesses := done.1.2, copied := some { ctrl with val := done.2 } }
      else { ret := -efault, accesses := done.1.2 }
    else
      let done := pcieUserWrite len ctrl.addr ctrl.val
      { ret := done.1, accesses := done.2 }

/-! ## The user window -/

/-- The whole access lies behind the control registers and inside the BAR. -/
def InUserWindow (resourceLen : UInt64) (addr : UInt32) : Prop :=
  4 ∣ addr.toNat ∧ addr.toNat + regUserRegion.toNat + 4 ≤ resourceLen.toNat

def RegAccess.Inside (x : RegAccess) (resourceLen : UInt64) : Prop :=
  regUserRegion.toNat ≤ x.offset.toNat ∧ x.offset.toNat + 4 ≤ resourceLen.toNat

/-- A call succeeds exactly on addresses of the window, and touches no register
otherwise. -/
structure Confined (resourceLen : UInt64) (addr : UInt32) (op : RegOp)
    (done : Int × List RegAccess) : Prop where
  succeeds : done.1 = 0 ↔ InUserWindow resourceLen addr
  touches : InUserWindow resourceLen addr →
    ∃ x, done.2 = [x] ∧ x.op = op ∧ x.offset.toNat = addr.toNat + regUserRegion.toNat
  refuses : ¬ InUserWindow resourceLen addr → done.1 < 0 ∧ done.2 = []

/-- What the property asks of one address: of both functions, and of the ioctl. -/
structure UserAccessConfined (resourceLen : UInt64) (addr : UInt32) : Prop where
  read : ∀ regs val,
    Confined resourceLen addr .read (pcieUserRead (pcieLen resourceLen) regs addr val).1
  write : ∀ val,
    Confined resourceLen addr (.write val) (pcieUserWrite (pcieLen resourceLen) addr val)
  ioctl : ∀ regs type val copyOut, ∀ x ∈
    (ioctlRwReg (pcieLen resourceLen) regs (some ⟨type, addr, val⟩) copyOut).accesses,
    x.Inside resourceLen

theorem toUInt32_pcieLen (resourceLen : UInt64) :
    (pcieLen resourceLen).toUInt32.toNat = resourceLen.toNat % 2 ^ 32 :=
  UInt64.toNat_toUInt32 resourceLen

theorem toNat_userOffset (addr : UInt32) :
    (regUserRegion.toUInt64 + addr.toUInt64).toNat = addr.toNat + regUserRegion.toNat := by
  have hlt := addr.toNat_lt
  rw [UInt64.toNat_add, UInt32.toNat_toUInt64, UInt32.toNat_toUInt64, Nat.add_comm]
  exact Nat.mod_eq_of_lt (by simp only [regUserRegion, UInt32.reduceToNat]; omega)

def Passes (resourceLen : UInt64) (addr : UInt32) : Prop :=
  4 ∣ addr.toNat ∧ (addr.toNat + regUserRegion.toNat) % 2 ^ 32 < resourceLen.toNat % 2 ^ 32

theorem access_of_passes {resourceLen : UInt64} {addr : UInt32} (h : Passes resourceLen addr)
    (op : RegOp) : pcieUserAccess (pcieLen resourceLen) addr op
      = (0, [⟨regUserRegion.toUInt64 + addr.toUInt64, op⟩]) := by
  have haligned : ¬ (addr % 4 != 0) = true := by
    simpa [← UInt32.toNat_inj, UInt32.toNat_mod] using Nat.mod_eq_zero_of_dvd h.1
  have hrange : ¬ addr + regUserRegion ≥ (pcieLen resourceLen).toUInt32 := by
    rw [ge_iff_le, UInt32.le_iff_toNat_le, UInt32.toNat_add, toUInt32_pcieLen, Nat.not_le]
    exact h.2
  rw [pcieUserAccess, if_neg haligned, if_neg hrange]

theorem access_of_not_passes {resourceLen : UInt64} {addr : UInt32}
    (h : ¬ Passes resourceLen addr) (op : RegOp) :
    pcieUserAccess (pcieLen resourceLen) addr op = (-einval, []) := by
  rw [pcieUserAccess]
  split
  · rfl
  case isFalse haligned =>
    refine if_pos ?_
    rw [ge_iff_le, UInt32.le_iff_toNat_le, UInt32.toNat_add, toUInt32_pcieLen]
    by_contra hlt
    refine h ⟨Nat.dvd_of_mod_eq_zero ?_, Nat.not_le.mp hlt⟩
    simpa [← UInt32.toNat_inj, UInt32.toNat_mod] using haligned

theorem confined_iff {resourceLen : UInt64} {addr : UInt32} (op : RegOp) :
    Confined resourceLen addr op (pcieUserAccess (pcieLen resourceLen) addr op) ↔
      (Passes resourceLen addr ↔ InUserWindow resourceLen addr) := by
  constructor
  · intro h
    rw [← h.succeeds]
    constructor
    · intro hpass
      rw [access_of_passes hpass]
    · intro hzero
      by_contra hpass
      rw [access_of_not_passes hpass] at hzero
      exact absurd hzero (by decide)
  · intro h
    by_cases hpass : Passes resourceLen addr
    · rw [access_of_passes hpass]
      have hin := h.mp hpass
      exact {
        succeeds := iff_of_true rfl hin
        touches := fun _ => ⟨_, rfl, rfl, toNat_userOffset addr⟩
        refuses := fun hout => absurd hin hout }
    · rw [access_of_not_passes hpass]
      have hout := mt h.mpr hpass
      exact {
        succeeds := iff_of_false (by decide) hout
        touches := fun hin => absurd hin hout
        refuses := fun _ => ⟨by decide, rfl⟩ }

theorem Confined.inside {resourceLen : UInt64} {addr : UInt32} {op : RegOp}
    {done : Int × List RegAccess} (h : Confined resourceLen addr op done) {x : RegAccess}
    (hx : x ∈ done.2) : x.Inside resourceLen := by
  by_cases hin : InUserWindow resourceLen addr
  · obtain ⟨y, hy, _, hoff⟩ := h.touches hin
    rw [hy, List.mem_singleton] at hx
    subst hx
    have hend := hin.2
    constructor <;> omega
  · rw [(h.refuses hin).2] at hx
    cases hx

theorem accesses_ioctlRwReg (len : Int32) (regs : UInt64 → UInt32) (ctrl : RwReg) (copyOut : Bool) :
    (ioctlRwReg len regs (some ctrl) copyOut).accesses = (pcieUserRead len regs ctrl.addr ctrl.val).1.2 ∨
      (ioctlRwReg len regs (some ctrl) copyOut).accesses = (pcieUserWrite len ctrl.addr ctrl.val).2 := by
  unfold ioctlRwReg
  by_cases hread : ctrl.type = 0
  · left
    simp only [hread, beq_self_eq_true, if_true]
    split
    · rfl
    · split <;> rfl
  · right
    simp [hread]

/-- The sum and the length are in the same multiple of 2³², or comparing their low
words happens to order them rightly. -/
def SameCarry (resourceLen : UInt64) (addr : UInt32) : Prop :=
  let last := addr.toNat + regUserRegion.toNat
  last / 2 ^ 32 = resourceLen.toNat / 2 ^ 32 ∨
    (last / 2 ^ 32 < resourceLen.toNat / 2 ^ 32 ∧ last % 2 ^ 32 < resourceLen.toNat % 2 ^ 32) ∨
    (resourceLen.toNat / 2 ^ 32 < last / 2 ^ 32 ∧ resourceLen.toNat % 2 ^ 32 ≤ last % 2 ^ 32)

theorem passes_iff_inUserWindow {resourceLen : UInt64} (hlen : 4 ∣ resourceLen.toNat)
    (addr : UInt32) : (Passes resourceLen addr ↔ InUserWindow resourceLen addr) ↔
      ¬ 4 ∣ addr.toNat ∨ SameCarry resourceLen addr := by
  have hregion : regUserRegion.toNat = 256 := rfl
  simp only [Passes, InUserWindow, SameCarry, hregion]
  omega

/-- Both functions and the ioctl keep to the user window exactly where the address is not
aligned or the sum does not lose its carry against the length. -/
theorem user_access_confined {resourceLen : UInt64} (hlen : 4 ∣ resourceLen.toNat)
    (addr : UInt32) : UserAccessConfined resourceLen addr ↔
      ¬ 4 ∣ addr.toNat ∨ SameCarry resourceLen addr := by
  rw [← passes_iff_inUserWindow hlen]
  constructor
  · intro h
    exact (confined_iff (.write 0)).mp (h.write 0)
  · intro h
    refine ⟨fun _ _ => (confined_iff _).mpr h, fun _ => (confined_iff _).mpr h, ?_⟩
    intro regs type val copyOut x hx
    rcases accesses_ioctlRwReg (pcieLen resourceLen) regs ⟨type, addr, val⟩ copyOut with hr | hw
    · rw [hr] at hx
      exact ((confined_iff _).mpr h).inside hx
    · rw [hw] at hx
      exact ((confined_iff _).mpr h).inside hx

theorem user_access_confined_first : UserAccessConfined 65536 0 :=
  (user_access_confined (by decide) 0).mpr (.inr (.inl (by decide)))

/-- A write to 0xffffff00 of the same BAR passes the check and lands 4 GiB behind it. -/
theorem user_write_beyond_bar : ¬ UserAccessConfined 65536 0xffffff00 := by
  intro h
  have hret : (pcieUserWrite (pcieLen 65536) 0xffffff00 7).1 = 0 := by decide
  have hend := ((h.write 7).succeeds.mp hret).2
  exact absurd hend (by decide)

end PdmaXen.Pdma
