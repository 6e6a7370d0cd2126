import Mathlib.Algebra.Group.Nat.Defs
import Mathlib.Data.Int.Basic
import PdmaXen.NetDom0.Server

/-!
# Block windows in the shared 64 KiB

The buffers given to `pdma_write`, `pdma_read` and `kernel_sendmsg`, as windows of
the pages or of the receive buffer. No function compares a length with the size of
the buffer.
-/

namespace PdmaXen.NetDom0
set_option autoImplicit false
open Bytes

def shareSize : Nat := shareMemoryPn * pageSize

/-- `count` bytes from `off` on, counted from the first byte of the buffer. -/
structure Win where
  off : Int
  count : Nat

/-- Inside the buffer, with the first `base` bytes left alone. -/
def Win.Inside (base : Nat) (w : Win) : Prop := base ≤ w.off ∧ w.off + w.count ≤ shareSize

/-- The block sizes `pdma_input_check_and_parse` lets through. -/
structure PdmaInfo.Admissible (info : PdmaInfo) : Prop where
  wt_pos : 0 < info.wtBlockSz.toNat
  wt_le : info.wtBlockSz.toNat ≤ 1024 * 1024
  wt_aligned : 4096 ∣ info.wtBlockSz.toNat
  rd_pos : 0 < info.rdBlockSz.toNat
  rd_le : info.rdBlockSz.toNat ≤ 1024 * 1024
  rd_aligned : 4096 ∣ info.rdBlockSz.toNat

/-! ## The loops -/

/-- The loop of `do_write_resp`; `wt_block_sz` is an `int` there. -/
def writeRespWindows (info : PdmaInfo) (length : UInt32) : List Win :=
  (List.range (Server.writeBlocks info length)).map fun i =>
    ⟨offsetLength + (Int32.ofNat i * info.wtBlockSz.toInt32).toInt, info.wtBlockSz.toNat⟩

/-- The loop of `do_read_data`; `val` is `ctrl.val` after the register was read. -/
def readDataWindows (info : PdmaInfo) (val : UInt32) : List Win :=
  (List.range (readCount val.toInt32 info.rdBlockSz.toInt32).toNatClampNeg).map fun i =>
    ⟨(Int32.ofNat i * info.rdBlockSz.toInt32).toInt, info.rdBlockSz.toNat⟩

def remoteWriteWindows (info : PdmaInfo) (length : UInt32) : List Win :=
  (List.range (Server.writeBlocks info length)).map fun i =>
    ⟨offsetLength + (UInt32.ofNat i * info.wtBlockSz).toNat, info.wtBlockSz.toNat⟩

/-- Its second loop, counted with the write block size. -/
def remoteReadWindows (info : PdmaInfo) (val : UInt32) : List Win :=
  (List.range (Server.remoteReadBlocks info val)).map fun i =>
    ⟨(UInt32.ofNat i * info.rdBlockSz).toNat, info.rdBlockSz.toNat⟩

/-- What `xen_sock_sendmsg_to_client` sends, from the start of the receive buffer. -/
def sendmsgWindow (length : UInt32) : Win := ⟨0, (Server.getSendLen length).toNat⟩

theorem ops_remote_windows {info : PdmaInfo} {ans : DevAnswers} {addr : UInt32}
    {buf : Nat → UInt8} {done : RemoteDone} (h : doRespRemoteIoOp info ans addr buf = some done) :
    done.ops = .regWrite addr ((done.length / 8) <<< 19) ::
      (remoteWriteWindows info done.length).map (fun w => .write (window buf w.off.toNat w.count))
      ++ .regRead addr :: (remoteReadWindows info
          (ans.regRead.getD ((done.length / 8) <<< 19))).map
        (fun w => .read w.off.toNat w.count) := by
  unfold doRespRemoteIoOp at h
  split at h
  · cases h
  · cases h
    simp only [remoteWriteWindows, remoteReadWindows, List.map_map]
    rfl

theorem ops_readData_windows {info : PdmaInfo} {ans : DevAnswers} {stale : UInt32}
    {pages : Nat → UInt8} {done : NativeDone} (h : doReadData info ans stale pages = some done) :
    done.ops = .regRead 0 :: (readDataWindows info (ans.regRead.getD stale)).map
      (fun w => .read w.off.toNat w.count) ++ [.regWrite 0 1] := by
  simp only [doReadData] at h
  split at h
  · cases h
  · cases h
    simp only [readDataWindows, List.map_map]
    rfl

theorem toInt_toInt32_neg {v : UInt32} (hneg : 2 ^ 31 ≤ v.toNat) :
    v.toInt32.toInt = -((2 ^ 32 - v.toNat : Nat) : Int) := by
  have hlt := v.toNat_lt
  have hval : v.toInt32.toInt = (v.toNat : Int).bmod (2 ^ 32) := BitVec.toInt_eq_toNat_bmod v.toBitVec
  rw [hval, Int.bmod_def]
  omega

/-- As long as the windows are inside, no product in `int` overflows, and the operations
of `do_write_resp` are those of the windows. -/
theorem ops_writeResp_windows {info : PdmaInfo} {ans : DevAnswers} {stale length : UInt32}
    {pages : Nat → UInt8} {done : NativeDone}
    (h : doWriteResp info ans stale length pages = some done)
    (hin : ∀ w ∈ writeRespWindows info length, w.Inside offsetLength) :
    done.ops = .regWrite 0 1 :: .regWrite 0 ((length / 8) <<< 19) ::
      (writeRespWindows info length).map (fun w => .write (window pages w.off.toNat w.count))
      ++ (.regRead 0 :: (readDataWindows info (ans.regRead.getD stale)).map
        (fun w => .read w.off.toNat w.count) ++ [.regWrite 0 1]) := by
  unfold doWriteResp at h
  split at h
  · cases h
  · obtain ⟨read, hread, rfl⟩ := Option.map_eq_some_iff.mp h
    have hops := ops_readData_windows hread
    have hoff : ∀ i ∈ List.range (Server.writeBlocks info length),
        (offsetLength + (Int32.ofNat i * info.wtBlockSz.toInt32).toInt).toNat
          = offsetLength + (UInt32.ofNat i * info.wtBlockSz).toNat := by
      intro i hi
      have hbase := (hin _ (List.mem_map_of_mem hi)).1
      simp only [← UInt32.toInt32_ofNat', ← UInt32.toInt32_mul] at hbase ⊢
      generalize UInt32.ofNat i * info.wtBlockSz = v at *
      by_cases hsmall : v.toNat < 2 ^ 31
      · rw [toInt_toInt32 hsmall]
        omega
      · have hlt := v.toNat_lt
        rw [toInt_toInt32_neg (by omega)] at hbase
        omega
    have hwrites : (writeRespWindows info length).map
        (fun w => DevOp.write (window pages w.off.toNat w.count))
        = (List.range (Server.writeBlocks info length)).map fun i => DevOp.write (window pages
          (offsetLength + (UInt32.ofNat i * info.wtBlockSz).toNat) info.wtBlockSz.toNat) := by
      rw [writeRespWindows, List.map_map]
      exact List.map_congr_left fun i hi =>
        congrArg (fun off => DevOp.write (window pages off info.wtBlockSz.toNat)) (hoff i hi)
    rw [hwrites]
    simp only [hops, List.map_map]
    rfl

/-! ## When a loop stays inside -/

/-- Windows of one size, the first at `base`: they fit exactly when their number does. -/
theorem forall_inside_iff (off : Nat → Int) (count : Nat) {base sz : Nat} (hsz : 0 < sz)
    (hbase : base ≤ shareSize) (hoff : ∀ i, i * sz ≤ shareSize → off i = base + i * sz) :
    (∀ w ∈ (List.range count).map fun i => Win.mk (off i) sz, w.Inside base) ↔
      count ≤ (shareSize - base) / sz := by
  simp only [List.mem_map, List.mem_range, forall_exists_index, and_imp, forall_apply_eq_imp_iff₂]
  constructor
  · intro h
    by_contra hlt
    have hq := Nat.div_mul_le_self (shareSize - base) sz
    have hover := Nat.lt_mul_div_succ (shareSize - base) hsz
    rw [Nat.mul_comm, Nat.succ_mul] at hover
    have hend := (h _ (Nat.not_le.mp hlt)).2
    have hlast := hoff ((shareSize - base) / sz) (by omega)
    simp only [hlast] at hend
    omega
  · intro h i hi
    have hmul := Nat.mul_le_mul_right sz (Nat.le_trans hi h)
    have hq := Nat.div_mul_le_self (shareSize - base) sz
    rw [Nat.succ_mul] at hmul
    simp only [Win.Inside, hoff i (by omega)]
    omega

theorem blockCount_le_iff (v : UInt32) {blockSz : UInt32} (hpos : 0 < blockSz) (q : Nat) :
    (blockCount v blockSz).toNat ≤ q ↔ v.toNat ≤ q * blockSz.toNat := by
  obtain ⟨pad, hmul, hpad⟩ := blockCount_mul v hpos
  constructor
  · intro h
    have := Nat.mul_le_mul_right blockSz.toNat h
    omega
  · intro h
    by_contra hlt
    have hle := Nat.mul_le_mul_right blockSz.toNat (Nat.not_le.mp hlt)
    rw [Nat.succ_mul] at hle
    omega

theorem blocksRead_le_iff (v : UInt32) {blockSz : UInt32} (hpos : 0 < blockSz) (q : Nat) :
    (blocksRead v blockSz).toNat ≤ q ↔ 1 ≤ q ∧ v.toNat ≤ q * blockSz.toNat := by
  have hle := blockCount_le_iff v hpos
  rw [blocksRead]
  split
  case isTrue hzero =>
    have hnat : (blockCount v blockSz).toNat = 0 := by
      simp [beq_iff_eq.mp hzero]
    have := (hle 0).mp (by omega)
    simp only [UInt32.toNat_one]
    omega
  case isFalse hne =>
    have hnat : (blockCount v blockSz).toNat ≠ 0 := by
      simpa [← UInt32.toNat_inj] using hne
    rw [← hle]
    omega

theorem blockCount_small (v : UInt32) {blockSz : UInt32} (hle : 4096 ≤ blockSz.toNat) :
    (blockCount v blockSz).toNat < 2 ^ 31 := by
  have hpos : 0 < blockSz := UInt32.lt_iff_toNat_lt.mpr (by simp; omega)
  have hlt := v.toNat_lt
  have hcount := (blockCount_le_iff v hpos (2 ^ 20)).mpr (by omega)
  omega

theorem toNat_mul_small {i : Nat} {blockSz : UInt32} (hpos : 0 < blockSz.toNat)
    (h : i * blockSz.toNat ≤ shareSize) :
    (UInt32.ofNat i * blockSz).toNat = i * blockSz.toNat := by
  have hsize : shareSize = 65536 := rfl
  have hi : i ≤ i * blockSz.toNat := Nat.le_mul_of_pos_right _ hpos
  rw [UInt32.toNat_mul, UInt32.toNat_ofNat', Nat.mod_eq_of_lt (a := i) (by omega),
    Nat.mod_eq_of_lt (by omega)]

theorem toInt_mul_small {i : Nat} {blockSz : UInt32} (hpos : 0 < blockSz.toNat)
    (h : i * blockSz.toNat ≤ shareSize) :
    (Int32.ofNat i * blockSz.toInt32).toInt = (i * blockSz.toNat : Nat) := by
  have hsize : shareSize = 65536 := rfl
  have heq := toNat_mul_small hpos h
  rw [← UInt32.toInt32_ofNat', ← UInt32.toInt32_mul, toInt_toInt32 (by omega), heq]

theorem toNatClampNeg_atLeastOne (c : Int32) :
    (if c == 0 then 1 else c).toNatClampNeg = if c.toInt = 0 then 1 else c.toInt.toNat := by
  have hzero : c = 0 ↔ c.toInt = 0 := by
    rw [← Int32.toInt_inj, Int32.toInt_zero]
  by_cases h : c = 0
  · simp [h]
  · simp only [beq_iff_eq, h, if_false, mt hzero.mpr h]
    rfl

section
variable {info : PdmaInfo} (h : info.Admissible)
include h

theorem PdmaInfo.Admissible.wt_page : 4096 ≤ info.wtBlockSz.toNat :=
  Nat.le_of_dvd h.wt_pos h.wt_aligned

theorem PdmaInfo.Admissible.rd_page : 4096 ≤ info.rdBlockSz.toNat :=
  Nat.le_of_dvd h.rd_pos h.rd_aligned

theorem PdmaInfo.Admissible.wt_pos' : 0 < info.wtBlockSz :=
  UInt32.lt_iff_toNat_lt.mpr h.wt_pos

theorem writeBlocks_le_iff (length : UInt32) (q : Nat) :
    Server.writeBlocks info length ≤ q ↔ length.toNat ≤ q * info.wtBlockSz.toNat := by
  rw [Server.writeBlocks, toNatClampNeg_toInt32 (blockCount_small _ h.wt_page),
    blockCount_le_iff _ h.wt_pos']

theorem writeResp_inside_iff (length : UInt32) :
    (∀ w ∈ writeRespWindows info length, w.Inside offsetLength) ↔
      length.toNat ≤ (shareSize - offsetLength) / info.wtBlockSz.toNat * info.wtBlockSz.toNat := by
  rw [writeRespWindows, ← writeBlocks_le_iff h]
  apply forall_inside_iff _ _ h.wt_pos (by decide)
  intro i hi
  rw [toInt_mul_small h.wt_pos hi, Int.natCast_mul]

theorem remoteWrite_inside_iff (length : UInt32) :
    (∀ w ∈ remoteWriteWindows info length, w.Inside offsetLength) ↔
      length.toNat ≤ (shareSize - offsetLength) / info.wtBlockSz.toNat * info.wtBlockSz.toNat := by
  rw [remoteWriteWindows, ← writeBlocks_le_iff h]
  apply forall_inside_iff _ _ h.wt_pos (by decide)
  intro i hi
  rw [toNat_mul_small h.wt_pos hi, Int.natCast_mul]

theorem remoteReadBlocks_eq (val : UInt32) :
    Server.remoteReadBlocks info val = (blocksRead val info.wtBlockSz).toNat := by
  have hsmall := blockCount_small val h.wt_page
  simp only [Server.remoteReadBlocks, toInt32_beq_zero, toNatClampNeg_toInt32 hsmall, blocksRead]
  split <;> rfl

theorem remoteReadBlocks_le_iff (val : UInt32) (q : Nat) :
    Server.remoteReadBlocks info val ≤ q ↔ 1 ≤ q ∧ val.toNat ≤ q * info.wtBlockSz.toNat := by
  rw [remoteReadBlocks_eq h, blocksRead_le_iff val h.wt_pos']

theorem remoteRead_inside_iff (val : UInt32) :
    (∀ w ∈ remoteReadWindows info val, w.Inside 0) ↔
      info.rdBlockSz.toNat ≤ shareSize ∧
        val.toNat ≤ shareSize / info.rdBlockSz.toNat * info.wtBlockSz.toNat := by
  have hiff := forall_inside_iff (fun i => ((UInt32.ofNat i * info.rdBlockSz).toNat : Int))
    (Server.remoteReadBlocks info val) h.rd_pos
    (Nat.zero_le _) (fun i hi => by simp [toNat_mul_small h.rd_pos hi])
  rw [remoteReadWindows, hiff, remoteReadBlocks_le_iff h, Nat.sub_zero,
    Nat.le_div_iff_mul_le h.rd_pos, Nat.one_mul]

/-- A length that is negative as an `int` gives one read or none. -/
theorem readCount_neg {val : UInt32} (hneg : 2 ^ 31 ≤ val.toNat) :
    (readCount val.toInt32 info.rdBlockSz.toInt32).toNatClampNeg =
      if info.rdBlockSz.toNat ∣ 2 ^ 32 - val.toNat ∨ 2 * info.rdBlockSz.toNat ≤ 2 ^ 32 - val.toNat
      then 0 else 1 := by
  have hlt := val.toNat_lt
  have hle := h.rd_le
  have hpage := h.rd_page
  have hrd : info.rdBlockSz.toInt32.toInt = info.rdBlockSz.toNat := toInt_toInt32 (by omega)
  have hval := toInt_toInt32_neg hneg
  generalize hn : 2 ^ 32 - val.toNat = n at hval ⊢
  have hne : info.rdBlockSz.toInt32 ≠ -1 := by
    intro hone
    rw [hone] at hrd
    simp at hrd
  have hdiv : (val.toInt32 / info.rdBlockSz.toInt32).toInt = -((n / info.rdBlockSz.toNat : Nat) : Int) := by
    rw [Int32.toInt_div_of_ne_right _ _ hne, hval, hrd, Int.neg_tdiv, Int.ofNat_tdiv]
  have hmod : (val.toInt32 % info.rdBlockSz.toInt32 != 0) = decide (¬ info.rdBlockSz.toNat ∣ n) := by
    rw [Bool.eq_iff_iff, bne_iff_ne, decide_eq_true_eq, ne_eq, ← Int32.toInt_inj, Int32.toInt_mod,
      hval, hrd, Int.neg_tmod, ← Int.ofNat_tmod, Nat.dvd_iff_mod_eq_zero, Int32.toInt_zero]
    omega
  have hquot : n / info.rdBlockSz.toNat ≤ n / 4096 := Nat.div_le_div_left hpage (by omega)
  have htwo : n / info.rdBlockSz.toNat < 2 ↔ n < 2 * info.rdBlockSz.toNat :=
    Nat.div_lt_iff_lt_mul h.rd_pos
  have hone : n / info.rdBlockSz.toNat < 1 ↔ n < 1 * info.rdBlockSz.toNat :=
    Nat.div_lt_iff_lt_mul h.rd_pos
  simp only [readCount, hmod, toNatClampNeg_atLeastOne, decide_eq_true_eq]
  generalize n / info.rdBlockSz.toNat = k at *
  have hsucc : (val.toInt32 / info.rdBlockSz.toInt32 + 1).toInt = 1 - (k : Int) := by
    rw [Int32.toInt_add, hdiv, Int32.toInt_one, Int.bmod_eq_of_le_mul_two] <;> omega
  by_cases hdvd : info.rdBlockSz.toNat ∣ n
  · have hge : info.rdBlockSz.toNat ≤ n := Nat.le_of_dvd (by omega) hdvd
    simp only [hdvd, not_true_eq_false, if_false, true_or, if_true, hdiv]
    split <;> omega
  · simp only [hdvd, not_false_eq_true, if_true, false_or, hsucc]
    split
    · rw [if_neg (by omega)]
    · split <;> omega

/-- `do_read_data` reads no block: the length is negative, and not by less than a block. -/
def NoReads (info : PdmaInfo) (val : UInt32) : Prop :=
  2 ^ 31 ≤ val.toNat ∧ (info.rdBlockSz.toNat ∣ 2 ^ 32 - val.toNat ∨
    2 * info.rdBlockSz.toNat ≤ 2 ^ 32 - val.toNat)

theorem readCount_le_iff (val : UInt32) (q : Nat) :
    (readCount val.toInt32 info.rdBlockSz.toInt32).toNatClampNeg ≤ q ↔
      NoReads info val ∨ (1 ≤ q ∧ val.toInt32.toInt ≤ q * info.rdBlockSz.toNat) := by
  have hle := h.rd_le
  by_cases hneg : 2 ^ 31 ≤ val.toNat
  · have hval := toInt_toInt32_neg hneg
    have hmul : (0 : Int) ≤ q * info.rdBlockSz.toNat := by
      rw [← Int.natCast_mul]
      exact Int.natCast_nonneg _
    rw [readCount_neg h hneg]
    simp only [NoReads, hneg, true_and]
    split
    case isTrue hnone => exact iff_of_true (Nat.zero_le q) (.inl hnone)
    case isFalse hone =>
      simp only [hone, false_or]
      omega
  · have hlt : val.toNat < 2 ^ 31 := Nat.not_le.mp hneg
    have hpos : 0 < info.rdBlockSz := UInt32.lt_iff_toNat_lt.mpr h.rd_pos
    rw [readCount_eq hlt (by omega), toNatClampNeg_toInt32 (blocksRead_lt hpos hlt),
      blocksRead_le_iff val hpos, toInt_toInt32 hlt]
    simp only [NoReads, hneg, false_and, false_or, ← Int.natCast_mul, Int.ofNat_le]

theorem readData_inside_iff (val : UInt32) :
    (∀ w ∈ readDataWindows info val, w.Inside 0) ↔
      NoReads info val ∨ (info.rdBlockSz.toNat ≤ shareSize ∧
        val.toInt32.toInt ≤ shareSize / info.rdBlockSz.toNat * info.rdBlockSz.toNat) := by
  have hiff := forall_inside_iff (fun i => (Int32.ofNat i * info.rdBlockSz.toInt32).toInt)
    (readCount val.toInt32 info.rdBlockSz.toInt32).toNatClampNeg h.rd_pos
    (Nat.zero_le _) (fun i hi => by simp [toInt_mul_small h.rd_pos hi])
  rw [readDataWindows, hiff, readCount_le_iff h, Nat.sub_zero, Nat.le_div_iff_mul_le h.rd_pos,
    Nat.one_mul, Int.natCast_ediv]

end

theorem toNat_getSendLen (length : UInt32) :
    (Server.getSendLen length).toNat = ((length - 32).toNat / 64 + 3) / 4 * 8 := by
  have hlt := (length - 32).toNat_lt
  have hmod : ((length - 32) / 64 % 4 != 0) = decide ((length - 32).toNat / 64 % 4 ≠ 0) := by
    rw [Bool.eq_iff_iff, bne_iff_ne, decide_eq_true_eq, ne_eq, ← UInt32.toNat_inj]
    simp
  simp only [Server.getSendLen, hmod, decide_eq_true_eq]
  split
  · simp only [UInt32.toNat_mul, UInt32.toNat_add, UInt32.toNat_div, UInt32.reduceToNat]
    omega
  · simp only [UInt32.toNat_mul, UInt32.toNat_div, UInt32.reduceToNat]
    omega

theorem sendmsg_inside_iff (length : UInt32) :
    (sendmsgWindow length).Inside 0 ↔ 32 ≤ length.toNat ∧ length.toNat ≤ 2097247 := by
  have hlt := length.toNat_lt
  have hsize : shareSize = 65536 := rfl
  have hsub : (length - 32).toNat = (2 ^ 32 - 32 + length.toNat) % 2 ^ 32 := UInt32.toNat_sub length 32
  simp only [Win.Inside, sendmsgWindow, toNat_getSendLen, hsub]
  omega

/-! ## The paths of a message -/

inductive Path where
  | writeResp | readData | remoteWrite | remoteRead | sendmsg

/-- The windows of a path for a message of `length` bytes. `reg` is what the length
register reports; when it cannot be read `ctrl.val` is `stale`, or the length word the
remote path has just written. -/
def Path.windows (info : PdmaInfo) (length : UInt32) (reg : Option UInt32) (stale : UInt32) :
    Path → List Win
  | .writeResp => writeRespWindows info length
  | .readData => readDataWindows info (reg.getD stale)
  | .remoteWrite => remoteWriteWindows info length
  | .remoteRead => remoteReadWindows info (reg.getD ((length / 8) <<< 19))
  | .sendmsg => [sendmsgWindow length]

/-- A message is written from behind its length word; an answer is read and sent from
the first byte on. -/
def Path.base : Path → Nat
  | .writeResp | .remoteWrite => offsetLength
  | .readData | .remoteRead | .sendmsg => 0

/-- How many bytes a path can take: whole blocks of what is left of the share. -/
def Path.Fits (info : PdmaInfo) (length : UInt32) (reg : Option UInt32) (stale : UInt32) :
    Path → Prop
  | .writeResp | .remoteWrite =>
    length.toNat ≤ (shareSize - offsetLength) / info.wtBlockSz.toNat * info.wtBlockSz.toNat
  | .readData =>
    NoReads info (reg.getD stale) ∨ (info.rdBlockSz.toNat ≤ shareSize ∧
      (reg.getD stale).toInt32.toInt ≤
        shareSize / info.rdBlockSz.toNat * info.rdBlockSz.toNat)
  | .remoteRead =>
    info.rdBlockSz.toNat ≤ shareSize ∧ (reg.getD ((length / 8) <<< 19)).toNat ≤
      shareSize / info.rdBlockSz.toNat * info.wtBlockSz.toNat
  | .sendmsg => 32 ≤ length.toNat ∧ length.toNat ≤ 2097247

/-- Every window of a path lies in the share exactly when its number of bytes fits. -/
theorem windows_inside {info : PdmaInfo} (h : info.Admissible) (length : UInt32)
    (reg : Option UInt32) (stale : UInt32) (path : Path) :
    (∀ w ∈ path.windows info length reg stale, w.Inside path.base) ↔
      path.Fits info length reg stale := by
  cases path with
  | writeResp => exact writeResp_inside_iff h length
  | readData => exact readData_inside_iff h _
  | remoteWrite => exact remoteWrite_inside_iff h length
  | remoteRead => exact remoteRead_inside_iff h _
  | sendmsg =>
    simp only [Path.windows, List.mem_singleton, forall_eq]
    exact sendmsg_inside_iff length

theorem windows_inside_fifteen :
    Path.writeResp.Fits ⟨4096, 4096⟩ 61440 none 0 ∧
      ∀ w ∈ Path.writeResp.windows ⟨4096, 4096⟩ 61440 none 0, w.Inside offsetLength := by
  have hfits : Path.writeResp.Fits ⟨4096, 4096⟩ 61440 none 0 := by
    simp only [Path.Fits]
    decide
  refine ⟨hfits, (windows_inside ?_ 61440 none 0 .writeResp).mpr hfits⟩
  exact ⟨by decide, by decide, by decide, by decide, by decide, by decide⟩

/-- With one byte more there is a sixteenth block, four bytes of it behind the share. -/
theorem sixteenth_block_outside :
    ¬ ∀ w ∈ Path.writeResp.windows ⟨4096, 4096⟩ 61441 none 0, w.Inside offsetLength := by
  intro h
  have hmem : Win.mk 61444 4096 ∈ Path.writeResp.windows ⟨4096, 4096⟩ 61441 none 0 := by
    refine List.mem_map.mpr ⟨15, ?_, ?_⟩
    · decide +kernel
    · rfl
  exact absurd (h _ hmem).2 (by decide)

end PdmaXen.NetDom0
