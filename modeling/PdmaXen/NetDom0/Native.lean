import PdmaXen.NetDom0.Wire

/-!
# The native and the remote path to the device

`do_write_resp` with `do_read_data` serves a message from the guest's pages,
`do_resp_remote_io_op` the same message from the receive buffer. The native path
resets the length register before and after; the remote one does not.
-/

namespace PdmaXen.NetDom0
set_option autoImplicit false
open Bytes

/-! ## The native path -/

/-- The loop bound of `do_read_data`, in `int`. -/
def readCount (length rdBlockSz : Int32) : Int32 :=
  let rdCount := if length % rdBlockSz != 0 then length / rdBlockSz + 1 else length / rdBlockSz
  if rdCount == 0 then 1 else rdCount

structure NativeDone where
  ops : List DevOp
  pages : Nat → UInt8

/-- `do_read_data`; `stale` is what `ctrl.val` holds when the register cannot be read,
`none` a division by zero. -/
def doReadData (info : PdmaInfo) (ans : DevAnswers) (stale : UInt32) (pages : Nat → UInt8) :
    Option NativeDone :=
  let rdBlockSz := info.rdBlockSz.toInt32
  if rdBlockSz == 0 then none
  else
    let length := (ans.regRead.getD stale).toInt32
    let rdCount := (readCount length rdBlockSz).toNatClampNeg
    let off := fun i => (Int32.ofNat i * rdBlockSz).toNatClampNeg
    some {
      ops := .regRead 0 :: ((List.range rdCount).map fun i => .read (off i) info.rdBlockSz.toNat)
        ++ [.regWrite 0 1]
      pages := (List.range rdCount).foldl
        (fun pages i => place pages (off i) ((ans.block i).getD [])) pages }

/-- `do_write_resp` of a server; the pages are cleared before the answer is read. -/
def doWriteResp (info : PdmaInfo) (ans : DevAnswers) (stale length : UInt32)
    (pages : Nat → UInt8) : Option NativeDone :=
  if info.wtBlockSz == 0 then none
  else
    let wtCount := (blockCount length info.wtBlockSz).toInt32.toNatClampNeg
    let codeLen := (length / 8) <<< 19
    let writes := (List.range wtCount).map fun i =>
      window pages (offsetLength + (UInt32.ofNat i * info.wtBlockSz).toNat) info.wtBlockSz.toNat
    let cleared := place pages 0 (List.replicate (shareMemoryPn * pageSize) 0)
    (doReadData info ans stale cleared).map fun done =>
      { done with ops := .regWrite 0 1 :: .regWrite 0 codeLen :: writes.map .write ++ done.ops }

/-! ## The same message on both paths -/

/-- A message: `length` bytes behind the length word, on the pages of the guest. -/
structure Message where
  length : UInt32
  pages : Nat → UInt8

/-- The receive buffer after the datagram with the message, its length word in front. -/
def Message.remoteBuf (m : Message) : Nat → UInt8 :=
  place m.pages 0 (leBytes offsetLength m.length.toNat)

/-- The device is given the same operations, and the blocks read back hold the same
bytes. `stale` and `addr` are what the stack holds where the code sets nothing. -/
def PathsAgree (info : PdmaInfo) (ans : DevAnswers) (m : Message) (stale addr : UInt32) : Prop :=
  ∃ native remote, doWriteResp info ans stale m.length m.pages = some native ∧
    doRespRemoteIoOp info ans addr m.remoteBuf = some remote ∧
    native.ops = remote.ops ∧
    ∀ off count, DevOp.read off count ∈ remote.ops →
      window native.pages off count = window remote.remoteBuf off count

theorem codeLen_ne_one (length : UInt32) : (length / 8) <<< 19 ≠ 1 := by
  intro h
  have hbit := congrArg (fun v : UInt32 => v.toBitVec.getLsbD 0) h
  simp at hbit

theorem head_native {info : PdmaInfo} {ans : DevAnswers} {stale length : UInt32}
    {pages : Nat → UInt8} {done : NativeDone}
    (h : doWriteResp info ans stale length pages = some done) :
    done.ops.head? = some (.regWrite 0 1) := by
  unfold doWriteResp at h
  split at h
  · cases h
  · obtain ⟨read, _, rfl⟩ := Option.map_eq_some_iff.mp h
    rfl

theorem head_remote {info : PdmaInfo} {ans : DevAnswers} {addr : UInt32} {buf : Nat → UInt8}
    {done : RemoteDone} (h : doRespRemoteIoOp info ans addr buf = some done) :
    done.ops.head? = some (.regWrite addr ((done.length / 8) <<< 19)) := by
  unfold doRespRemoteIoOp at h
  split at h
  · cases h
  · cases h
    rfl

theorem ops_ne {info : PdmaInfo} {ans : DevAnswers} {stale length addr : UInt32}
    {pages buf : Nat → UInt8} {native : NativeDone} {remote : RemoteDone}
    (hn : doWriteResp info ans stale length pages = some native)
    (hr : doRespRemoteIoOp info ans addr buf = some remote) : native.ops ≠ remote.ops := by
  intro h
  have hhead := (head_native hn).symm.trans ((congrArg List.head? h).trans (head_remote hr))
  obtain ⟨_, hval⟩ := DevOp.regWrite.inj (Option.some.inj hhead)
  exact codeLen_ne_one _ hval.symm

/-! ## What the paths share -/

theorem toInt_toInt32 {v : UInt32} (h : v.toNat < 2 ^ 31) : v.toInt32.toInt = v.toNat := by
  have hv : v.toInt32 = Int32.ofNat v.toNat := by
    rw [← UInt32.toInt32_ofNat', UInt32.ofNat_toNat]
  rw [hv, Int32.toInt_ofNat_of_lt h]

theorem toInt32_div {v blockSz : UInt32} (hv : v.toNat < 2 ^ 31) (hblk : blockSz.toNat < 2 ^ 31) :
    (v / blockSz).toInt32 = v.toInt32 / blockSz.toInt32 := by
  have hle : (v / blockSz).toNat ≤ v.toNat := by
    rw [UInt32.toNat_div]
    exact Nat.div_le_self _ _
  have hne : blockSz.toInt32 ≠ -1 := by
    intro h
    have hneg := toInt_toInt32 hblk
    rw [h] at hneg
    simp at hneg
  apply Int32.toInt_inj.mp
  rw [Int32.toInt_div_of_ne_right _ _ hne, toInt_toInt32 hv, toInt_toInt32 hblk,
    toInt_toInt32 (by omega), UInt32.toNat_div]
  exact Int.ofNat_tdiv _ _

theorem toInt32_mod {v blockSz : UInt32} (hv : v.toNat < 2 ^ 31) (hblk : blockSz.toNat < 2 ^ 31) :
    (v % blockSz).toInt32 = v.toInt32 % blockSz.toInt32 := by
  have hle : (v % blockSz).toNat ≤ v.toNat := by
    rw [UInt32.toNat_mod]
    exact Nat.mod_le _ _
  apply Int32.toInt_inj.mp
  rw [Int32.toInt_mod, toInt_toInt32 hv, toInt_toInt32 hblk, toInt_toInt32 (by omega),
    UInt32.toNat_mod]
  exact Int.ofNat_tmod _ _

theorem toInt32_eq_zero {v : UInt32} : v.toInt32 = 0 ↔ v = 0 := by
  constructor
  · intro h
    exact congrArg Int32.toUInt32 h
  · rintro rfl
    rfl

theorem toInt32_beq_zero (v : UInt32) : (v.toInt32 == 0) = (v == 0) := by
  rw [Bool.eq_iff_iff]
  simp [toInt32_eq_zero]

def blocksRead (v blockSz : UInt32) : UInt32 :=
  if blockCount v blockSz == 0 then 1 else blockCount v blockSz

/-- Below 2³¹ the arithmetic in `int` is that in `unsigned int`. -/
theorem readCount_eq {v blockSz : UInt32} (hv : v.toNat < 2 ^ 31) (hblk : blockSz.toNat < 2 ^ 31) :
    readCount v.toInt32 blockSz.toInt32 = (blocksRead v blockSz).toInt32 := by
  have hcount : (blockCount v blockSz).toInt32 = if v.toInt32 % blockSz.toInt32 != 0
      then v.toInt32 / blockSz.toInt32 + 1 else v.toInt32 / blockSz.toInt32 := by
    rw [← toInt32_mod hv hblk, ← toInt32_div hv hblk, blockCount, bne, bne, toInt32_beq_zero]
    split <;> simp
  rw [readCount, ← hcount, blocksRead]
  simp only [toInt32_beq_zero]
  split <;> rfl

theorem blocksRead_mul (v : UInt32) {blockSz : UInt32} (hpos : 0 < blockSz) {i : Nat}
    (hi : i < (blocksRead v blockSz).toNat) : i * blockSz.toNat ≤ v.toNat := by
  unfold blocksRead at hi
  split at hi
  · have : i = 0 := by simpa using hi
    simp [this]
  · obtain ⟨pad, hmul, hpad⟩ := blockCount_mul v hpos
    have hsucc := Nat.mul_le_mul_right blockSz.toNat hi
    rw [Nat.succ_mul, hmul] at hsucc
    omega

theorem blocksRead_lt {v blockSz : UInt32} (hpos : 0 < blockSz) (hv : v.toNat < 2 ^ 31) :
    (blocksRead v blockSz).toNat < 2 ^ 31 := by
  have hle := blockCount_le v hpos
  unfold blocksRead
  split
  · decide
  · omega

def Message.blocks (m : Message) (info : PdmaInfo) : List (List UInt8) :=
  (List.range (blockCount m.length info.wtBlockSz).toInt32.toNatClampNeg).map fun i =>
    window m.pages (offsetLength + (UInt32.ofNat i * info.wtBlockSz).toNat) info.wtBlockSz.toNat

def readOps (info : PdmaInfo) (n : Nat) : List DevOp :=
  (List.range n).map fun i =>
    .read (UInt32.ofNat i * info.rdBlockSz).toNat info.rdBlockSz.toNat

theorem ops_doReadData {info : PdmaInfo} {ans : DevAnswers} {v : UInt32}
    (hreg : ans.regRead = some v) (hpos : 0 < info.rdBlockSz) (hblk : info.rdBlockSz.toNat < 2 ^ 31)
    (hv : v.toNat < 2 ^ 31) (stale : UInt32) (pages : Nat → UInt8) :
    ∃ done, doReadData info ans stale pages = some done ∧ done.ops
      = .regRead 0 :: readOps info (blocksRead v info.rdBlockSz).toNat ++ [.regWrite 0 1] := by
  have hne : (info.rdBlockSz.toInt32 == 0) = false := by
    simpa [toInt32_eq_zero, UInt32.pos_iff_ne_zero] using hpos
  have hcount : (readCount v.toInt32 info.rdBlockSz.toInt32).toNatClampNeg
      = (blocksRead v info.rdBlockSz).toNat := by
    rw [readCount_eq hv hblk, toNatClampNeg_toInt32 (blocksRead_lt hpos hv)]
  simp only [doReadData, hne, Bool.false_eq_true, if_false, hreg, Option.getD_some, hcount]
  refine ⟨_, rfl, ?_⟩
  have hoff : ∀ i ∈ List.range (blocksRead v info.rdBlockSz).toNat,
      (Int32.ofNat i * info.rdBlockSz.toInt32).toNatClampNeg
        = (UInt32.ofNat i * info.rdBlockSz).toNat := by
    intro i hi
    have hmul := blocksRead_mul v hpos (List.mem_range.mp hi)
    have hi' : i ≤ i * info.rdBlockSz.toNat :=
      Nat.le_mul_of_pos_right _ (by simpa [UInt32.lt_iff_toNat_lt] using hpos)
    have heq : (UInt32.ofNat i * info.rdBlockSz).toNat = i * info.rdBlockSz.toNat := by
      rw [UInt32.toNat_mul, UInt32.toNat_ofNat', Nat.mod_eq_of_lt (a := i) (by omega),
        Nat.mod_eq_of_lt (by omega)]
    rw [← UInt32.toInt32_ofNat', ← UInt32.toInt32_mul, toNatClampNeg_toInt32 (by omega)]
  have hmap := List.map_congr_left fun i hi =>
    congrArg (fun off => DevOp.read off info.rdBlockSz.toNat) (hoff i hi)
  rw [readOps, ← hmap]

theorem ops_doWriteResp {info : PdmaInfo} {ans : DevAnswers} {v : UInt32}
    (hreg : ans.regRead = some v) (hwt : 0 < info.wtBlockSz) (hpos : 0 < info.rdBlockSz)
    (hblk : info.rdBlockSz.toNat < 2 ^ 31) (hv : v.toNat < 2 ^ 31) (stale : UInt32) (m : Message) :
    ∃ done, doWriteResp info ans stale m.length m.pages = some done ∧ done.ops
      = .regWrite 0 1 :: (.regWrite 0 ((m.length / 8) <<< 19) :: (m.blocks info).map .write
        ++ .regRead 0 :: readOps info (blocksRead v info.rdBlockSz).toNat) ++ [.regWrite 0 1] := by
  have hne : (info.wtBlockSz == 0) = false := by
    simpa [UInt32.pos_iff_ne_zero] using hwt
  obtain ⟨done, hdone, hops⟩ := ops_doReadData hreg hpos hblk hv stale
    (place m.pages 0 (List.replicate (shareMemoryPn * pageSize) 0))
  simp only [doWriteResp, hne, Bool.false_eq_true, if_false, hdone, Option.map_some]
  refine ⟨_, rfl, ?_⟩
  simp [hops, Message.blocks]

theorem remoteBuf_apply (m : Message) {i : Nat} (hi : offsetLength ≤ i) :
    m.remoteBuf i = m.pages i := by
  have hnone : (leBytes offsetLength m.length.toNat)[i]? = none := by simpa using hi
  simp [Message.remoteBuf, place, List.getD_eq_getElem?_getD, hnone]

theorem leVal_remoteBuf (m : Message) :
    UInt32.ofNat (leVal (window m.remoteBuf 0 offsetLength)) = m.length := by
  have hlen : 0 + offsetLength ≤ (leBytes offsetLength m.length.toNat).length := by simp
  have hlt := m.length.toNat_lt
  have hwin := window_place m.pages 0 hlen
  rw [Nat.add_zero, List.drop_zero, List.take_of_length_le (by simp)] at hwin
  rw [Message.remoteBuf, hwin, leVal_leBytes (by simpa [offsetLength]), UInt32.ofNat_toNat]

theorem ops_doRespRemoteIoOp {info : PdmaInfo} {ans : DevAnswers} {v : UInt32}
    (hreg : ans.regRead = some v) (hwt : 0 < info.wtBlockSz) (hv : v.toNat < 2 ^ 31)
    (addr : UInt32) (m : Message) :
    ∃ done, doRespRemoteIoOp info ans addr m.remoteBuf = some done ∧ done.ops
      = .regWrite addr ((m.length / 8) <<< 19) :: (m.blocks info).map .write
        ++ .regRead addr :: readOps info (blocksRead v info.wtBlockSz).toNat := by
  have hne : (info.wtBlockSz == 0) = false := by
    simpa [UInt32.pos_iff_ne_zero] using hwt
  have hcount : (if (blockCount v info.wtBlockSz).toInt32 == 0 then 1
      else (blockCount v info.wtBlockSz).toInt32.toNatClampNeg)
        = (blocksRead v info.wtBlockSz).toNat := by
    have hle := blockCount_le v hwt
    rw [toInt32_beq_zero, toNatClampNeg_toInt32 (by omega), blocksRead]
    split <;> rfl
  have hwindow : ∀ off, window m.remoteBuf (offsetLength + off) info.wtBlockSz.toNat
      = window m.pages (offsetLength + off) info.wtBlockSz.toNat := by
    intro off
    refine List.map_congr_left fun i _ => ?_
    exact remoteBuf_apply m (by omega)
  simp only [doRespRemoteIoOp, hne, Bool.false_eq_true, if_false, hreg, Option.getD_some, hcount,
    leVal_remoteBuf, hwindow]
  exact ⟨_, rfl, rfl⟩

/-- Without its two resets the native path gives the device what the remote one does
exactly when `ctrl.addr` happens to be 0 and both block sizes ask for as many reads. -/
theorem native_ops_iff {info : PdmaInfo} {ans : DevAnswers} {v : UInt32}
    (hreg : ans.regRead = some v) (hwt : 0 < info.wtBlockSz) (hpos : 0 < info.rdBlockSz)
    (hblk : info.rdBlockSz.toNat < 2 ^ 31) (hv : v.toNat < 2 ^ 31) (stale addr : UInt32)
    (m : Message) :
    ∃ native remote, doWriteResp info ans stale m.length m.pages = some native ∧
      doRespRemoteIoOp info ans addr m.remoteBuf = some remote ∧
      (native.ops = .regWrite 0 1 :: remote.ops ++ [.regWrite 0 1] ↔
        addr = 0 ∧ blocksRead v info.rdBlockSz = blocksRead v info.wtBlockSz) := by
  obtain ⟨native, hn, hnops⟩ := ops_doWriteResp hreg hwt hpos hblk hv stale m
  obtain ⟨remote, hr, hrops⟩ := ops_doRespRemoteIoOp hreg hwt hv addr m
  refine ⟨native, remote, hn, hr, ?_⟩
  rw [hnops, hrops]
  constructor
  · intro h
    have hbody := List.append_cancel_right (List.cons.inj h).2
    obtain ⟨hhead, htail⟩ := List.cons.inj hbody
    obtain ⟨haddr, _⟩ := DevOp.regWrite.inj hhead
    obtain ⟨_, hreads⟩ := List.cons.inj (List.append_cancel_left htail)
    have hlen := congrArg List.length hreads
    exact ⟨haddr.symm, UInt32.toNat_inj.mp (by simpa [readOps] using hlen)⟩
  · rintro ⟨rfl, hcount⟩
    rw [hcount]

/-! ## The paths differ -/

/-- The two paths agree on no message: only the native one begins with a reset. -/
theorem native_remote_differ (info : PdmaInfo) (ans : DevAnswers) (m : Message)
    (stale addr : UInt32) : ¬ PathsAgree info ans m stale addr := by
  rintro ⟨native, remote, hn, hr, hops, _⟩
  exact ops_ne hn hr hops

/-- Eight bytes, blocks of one page, and a device that answers with an empty register. -/
theorem eight_bytes_differ :
    ¬ PathsAgree { rdBlockSz := 4096, wtBlockSz := 4096 }
      { regRead := some 0, block := fun _ => some (List.replicate 4096 1) }
      { length := 8, pages := fun _ => 0 } 0 0 := by
  rintro ⟨native, remote, hn, hr, hops, _⟩
  exact ops_ne hn hr hops

end PdmaXen.NetDom0
