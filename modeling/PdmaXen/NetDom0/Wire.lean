import PdmaXen.Bytes

/-!
# The WRITE message between two back ends

`xen_sock_sendmsg_to_server` on the client, `xen_sock_recvmsg_from_client` and
`do_resp_remote_io_op` on the server. The kernel's address space is that of x86-64
and may fault; the shared pages are mapped one after the other from `map_pages[0]`.
-/

namespace PdmaXen.NetDom0
set_option autoImplicit false
open Bytes

abbrev Addr := BitVec 64

def pageSize : Nat := 4096
def shareMemoryPn : Nat := 16
def offsetLength : Nat := 4

structure PdmaInfo where
  rdBlockSz : UInt32
  wtBlockSz : UInt32

/-! ## Client -/

/-- What the client's kernel can read. `past` are the bytes found when a vector
is read beyond its only element. -/
structure ClientMem where
  mapPages : Addr
  pages : Nat → UInt8
  other : Addr → Option UInt8
  past : Nat → Option UInt8

def ClientMem.read (m : ClientMem) (a : Addr) : Option UInt8 :=
  let off := (a - m.mapPages).toNat
  if off < shareMemoryPn * pageSize then some (m.pages off) else m.other a

/-- `kernel_sendmsg` of a one-element vector: the datagram has `size` bytes. -/
def kernelSendmsg (m : ClientMem) (iovBase : Addr) (iovLen size : Nat) : Option (List UInt8) :=
  gather (fun i => if i < iovLen then m.read (iovBase + BitVec.ofNat 64 i) else m.past (i - iovLen))
    size

/-- `memcpy(chrif->map_pages, &length, sizeof(unsigned int))` as `map_pages[0]` sees it. -/
def copyLength (mapPages : Addr) (length : UInt32) : Addr :=
  BitVec.ofNat 64 (leVal (leBytes offsetLength length.toNat
    ++ (leBytes 8 mapPages.toNat).drop offsetLength))

/-- The datagram, `none` when `kernel_sendmsg` fails. -/
def xenSockSendmsgToServer (m : ClientMem) (length : UInt32) : Option (List UInt8) :=
  let mapPages := copyLength m.mapPages length
  kernelSendmsg m (mapPages + BitVec.ofNat 64 offsetLength) length.toNat
    (length.toNat + offsetLength)

/-! ## Server -/

def xenSockRecvmsgFromClient (remoteBuf : Nat → UInt8) (datagram : List UInt8) : Nat → UInt8 :=
  place remoteBuf 0 (datagram.take (shareMemoryPn * pageSize))

inductive DevOp where
  | regWrite (addr val : UInt32)
  | regRead (addr : UInt32)
  | write (data : List UInt8)
  | read (off count : Nat)

def DevOp.written : DevOp → List UInt8
  | .write data => data
  | _ => []

/-- What the device answers: the register read, and each block read; `none` is an error. -/
structure DevAnswers where
  regRead : Option UInt32
  block : Nat → Option (List UInt8)

def blockCount (length blockSz : UInt32) : UInt32 :=
  if length % blockSz != 0 then length / blockSz + 1 else length / blockSz

structure RemoteDone where
  length : UInt32
  ops : List DevOp
  remoteBuf : Nat → UInt8

/-- `do_resp_remote_io_op`; `addr` is what `ctrl.addr` holds, `none` a division by zero. -/
def doRespRemoteIoOp (info : PdmaInfo) (ans : DevAnswers) (addr : UInt32)
    (remoteBuf : Nat → UInt8) : Option RemoteDone :=
  let length := UInt32.ofNat (leVal (window remoteBuf 0 offsetLength))
  let codeLen := (length / 8) <<< 19
  if info.wtBlockSz == 0 then none
  else
    let wtcount := (blockCount length info.wtBlockSz).toInt32.toNatClampNeg
    let writes := (List.range wtcount).map fun i =>
      window remoteBuf (offsetLength + (UInt32.ofNat i * info.wtBlockSz).toNat)
        info.wtBlockSz.toNat
    let val := ans.regRead.getD codeLen
    let count := (blockCount val info.wtBlockSz).toInt32
    let rdcount := if count == 0 then 1 else count.toNatClampNeg
    let off := fun i => (UInt32.ofNat i * info.rdBlockSz).toNat
    some {
      length
      ops := .regWrite addr codeLen :: writes.map .write ++ .regRead addr ::
        (List.range rdcount).map fun i => .read (off i) info.rdBlockSz.toNat
      remoteBuf := (List.range rdcount).foldl
        (fun buf i => place buf (off i) ((ans.block i).getD [])) remoteBuf }

def RemoteDone.written (done : RemoteDone) : List UInt8 := done.ops.flatMap DevOp.written

/-! ## Round trip -/

structure ServerEnd where
  info : PdmaInfo
  ans : DevAnswers
  addr : UInt32
  remoteBuf : Nat → UInt8

def ClientMem.payload (m : ClientMem) (length : UInt32) : List UInt8 :=
  window m.pages offsetLength length.toNat

/-- `msg == encodelen + data`. -/
def message (length : UInt32) (payload : List UInt8) : List UInt8 :=
  leBytes offsetLength length.toNat ++ payload

/-- The server decodes the length and writes the payload to the device, padded
to whole blocks. -/
def RoundTrip (m : ClientMem) (s : ServerEnd) (length : UInt32) : Prop :=
  ∃ datagram done padding,
    xenSockSendmsgToServer m length = some datagram ∧
    doRespRemoteIoOp s.info s.ans s.addr (xenSockRecvmsgFromClient s.remoteBuf datagram)
      = some done ∧
    done.length = length ∧ done.written = m.payload length ++ padding ∧
    padding.length < s.info.wtBlockSz.toNat

theorem blockCount_mul (length : UInt32) {blockSz : UInt32} (hblk : 0 < blockSz) :
    ∃ pad, (blockCount length blockSz).toNat * blockSz.toNat = length.toNat + pad ∧
      pad < blockSz.toNat := by
  have hpos : 0 < blockSz.toNat := by simpa [UInt32.lt_iff_toNat_lt] using hblk
  have hmod := Nat.mod_lt length.toNat hpos
  have hdiv := Nat.div_add_mod' length.toNat blockSz.toNat
  unfold blockCount
  split
  case isTrue h =>
    have hne : length.toNat % blockSz.toNat ≠ 0 := by
      simpa [← UInt32.toNat_inj] using h
    have hlt : length.toNat / blockSz.toNat + 1 < 2 ^ 32 := by
      have htwo : 2 ≤ blockSz.toNat := by
        by_contra hone
        have : blockSz.toNat = 1 := by omega
        rw [this, Nat.mod_one] at hne
        exact hne rfl
      have hle := Nat.div_le_div_left (a := length.toNat) htwo (by omega)
      have := length.toNat_lt
      omega
    refine ⟨blockSz.toNat - length.toNat % blockSz.toNat, ?_, by omega⟩
    rw [UInt32.toNat_add, UInt32.toNat_div, UInt32.toNat_one, Nat.mod_eq_of_lt hlt, Nat.succ_mul]
    omega
  case isFalse h =>
    have heq : length.toNat % blockSz.toNat = 0 := by
      simpa [← UInt32.toNat_inj] using h
    refine ⟨0, ?_, hpos⟩
    rw [UInt32.toNat_div]
    omega

theorem blockCount_le (length : UInt32) {blockSz : UInt32} (hblk : 0 < blockSz) :
    (blockCount length blockSz).toNat ≤ length.toNat := by
  obtain ⟨pad, hmul, hpad⟩ := blockCount_mul length hblk
  by_contra hlt
  have hle : (length.toNat + 1) * blockSz.toNat
      ≤ (blockCount length blockSz).toNat * blockSz.toNat :=
    Nat.mul_le_mul_right _ (by omega)
  have hself : length.toNat ≤ length.toNat * blockSz.toNat :=
    Nat.le_mul_of_pos_right _ (by omega)
  rw [hmul, Nat.succ_mul] at hle
  omega

theorem toNatClampNeg_toInt32 {v : UInt32} (h : v.toNat < 2 ^ 31) :
    v.toInt32.toNatClampNeg = v.toNat := by
  have hv : v.toInt32 = Int32.ofNat v.toNat := by
    rw [← UInt32.toInt32_ofNat', UInt32.ofNat_toNat]
  rw [hv, Int32.toNatClampNeg_ofNat_of_lt h]

end PdmaXen.NetDom0
