import Mathlib.Data.UInt
import PdmaXen.Bytes

/-!
# `pdma-write` and `pdma-read` on a loop-back device

The two test programs of the driver and the verdict of `pdma-rw-verify.sh`. `pdma-read`
accepts exactly the pattern of its options; `pdma-write` sends one block of the file
`in` again and again.
-/

namespace PdmaXen.Tools
set_option autoImplicit false
open Bytes

abbrev Block := List UInt8

/-- The options of both programs; `-pt` sets `pattern` and `check_pt`. -/
structure Options where
  pattern : UInt32 := 0
  checkPt : Bool := false
  inc : UInt32 := 1
  count : Nat

/-! ## `pdma-write.c` -/

/-- None at the end of the file. -/
def fgetc : List UInt8 → Option UInt8 × List UInt8
  | [] => (none, [])
  | c :: file => (some c, file)

/-- The next 64 characters as a binary number. -/
def readBits : Nat → UInt64 → List UInt8 → UInt64 × List UInt8
  | 0, k, file => (k, file)
  | left + 1, k, file =>
    let c := fgetc file
    readBits left ((k <<< 1) + if c.1 = some 49 then 1 else 0) c.2

/-- `left` numbers of the file, with one character passed over after each. -/
def fillWords : Nat → List UInt8 → Block
  | 0, _ => []
  | left + 1, file =>
    let k := readBits 64 0 file
    leBytes 8 k.1.toNat ++ fillWords left (fgetc k.2).2

/-- The buffer before the first write; `heap` is what `malloc` finds. -/
def fillBuf (blockSz : Nat) (file : List UInt8) (heap : Nat → UInt8) : Block :=
  fillWords (blockSz / 8) file ++ window heap (8 * (blockSz / 8)) (blockSz - 8 * (blockSz / 8))

/-- The blocks the device takes; `write i` is the return value of the `i`-th call. With
`check_pt` the loop computes `start_pt` and does nothing with it. -/
def writeLoop (blockSz : Nat) (buf : Block) (write : Nat → Int) : Nat → Nat → List Block
  | _, 0 => []
  | i, count + 1 =>
    if write i ≠ blockSz then [] else buf :: writeLoop blockSz buf write (i + 1) count

def pdmaWrite (o : Options) (blockSz : Nat) (file : List UInt8) (heap : Nat → UInt8)
    (write : Nat → Int) : List Block :=
  writeLoop blockSz (fillBuf blockSz file heap) write 0 o.count

/-! ## `pdma-read.c` -/

def val32 (buf : Block) (i : Nat) : UInt32 := UInt32.ofNat (leVal (chunk 4 buf i))

def startPt (o : Options) (blockSz totalReadNum : Nat) : UInt32 :=
  (o.pattern.toUInt64 +
    (o.inc * UInt32.ofNat (blockSz / 4)).toUInt64 * UInt64.ofNat totalReadNum).toUInt32

def checkPattern (o : Options) (blockSz totalReadNum : Nat) (buf : Block) : Bool :=
  (List.range (blockSz / 4)).all fun i =>
    val32 buf i == startPt o blockSz totalReadNum + UInt32.ofNat i * o.inc

/-- The answers of the calls of `read`: the bytes it delivers, or none for an error. After the
last of them a call blocks, and then the loop has no result. -/
def readLoop (o : Options) (blockSz : Nat) : Nat → Nat → Int → List (Option Block) → Option Int
  | _, 0, ret, _ => some ret
  | _, _ + 1, _, [] => none
  | _, _ + 1, _, none :: _ => some (-1)
  | totalReadNum, count + 1, _, some buf :: reads =>
    if buf.length ≠ blockSz then some (-1)
    else if o.checkPt && !checkPattern o blockSz totalReadNum buf then some (-1)
    else readLoop o blockSz (totalReadNum + 1) count blockSz reads

def pdmaRead (o : Options) (blockSz : Nat) (reads : List (Option Block)) : Option Int :=
  readLoop o blockSz 0 o.count 0 reads

/-- `$?` after a `main` that returns `ret`. -/
def exitStatus (ret : Int) : Nat := (ret % 256).toNat

/-! ## Agreement -/

/-- The check goes through. -/
def Passes (o : Options) (blockSz : Nat) (reads : List (Option Block)) : Prop :=
  ∃ ret, pdmaRead o blockSz reads = some ret ∧ ret ≠ -1

/-- The first reads of the device deliver what was written. -/
def Faithful (o : Options) (written : List Block) (reads : List (Option Block)) : Prop :=
  reads.take o.count = written.map some

/-- `pdma-read` passes exactly the faithful transfers of what was written and reports every other
one, and where its exit status can tell, so does `pdma-rw-verify.sh`. -/
structure Agrees (o : Options) (blockSz : Nat) (written : List Block) : Prop where
  passes_iff : ∀ reads, Passes o blockSz reads ↔ Faithful o written reads
  reported : ∀ reads, o.count ≤ reads.length → ¬ Faithful o written reads →
    pdmaRead o blockSz reads = some (-1)
  script_iff : 256 ∣ blockSz → ∀ reads,
    (∃ ret, pdmaRead o blockSz reads = some ret ∧ exitStatus ret = 0) ↔ Faithful o written reads

/-! ## The reader -/

section
variable {o : Options} {blockSz : Nat} {buf : Block}

/-- The reader accepts this as its block `k`. -/
def Accepts (o : Options) (blockSz k : Nat) (buf : Block) : Prop :=
  buf.length = blockSz ∧ (o.checkPt → checkPattern o blockSz k buf)

theorem readLoop_accepts {total : Nat} (h : Accepts o blockSz total buf) (count : Nat) (ret₀ : Int)
    (reads : List (Option Block)) : readLoop o blockSz total (count + 1) ret₀ (some buf :: reads)
      = readLoop o blockSz (total + 1) count blockSz reads := by
  have hgo : ¬ (o.checkPt && !checkPattern o blockSz total buf) = true := by
    intro hstop
    rw [Bool.and_eq_true, Bool.not_eq_true'] at hstop
    exact absurd (h.2 hstop.1) (Bool.eq_false_iff.mp hstop.2)
  rw [readLoop, if_neg (not_not.mpr h.1), if_neg hgo]

theorem readLoop_rejects {total : Nat} (h : ¬ Accepts o blockSz total buf) (count : Nat) (ret₀ : Int)
    (reads : List (Option Block)) :
    readLoop o blockSz total (count + 1) ret₀ (some buf :: reads) = some (-1) := by
  rw [readLoop]
  split
  · rfl
  case isFalse hlen =>
    rw [Accepts, not_and, Classical.not_imp] at h
    obtain ⟨hpt, hcheck⟩ := h (not_not.mp hlen)
    rw [if_pos]
    rw [hpt, Bool.true_and, Bool.not_eq_true']
    exact Bool.eq_false_iff.mpr hcheck

def Fine (o : Options) (blockSz total : Nat) (reads : List (Option Block)) (k : Nat) : Prop :=
  ∃ buf, reads[k]? = some (some buf) ∧ Accepts o blockSz (total + k) buf

theorem fine_zero {total : Nat} {reads : List (Option Block)} :
    Fine o blockSz total (some buf :: reads) 0 ↔ Accepts o blockSz total buf := by
  constructor
  · intro h
    obtain ⟨b, hb, hok⟩ := h
    obtain rfl : buf = b := Option.some.inj (Option.some.inj hb)
    exact hok
  · intro h
    exact ⟨buf, rfl, h⟩

theorem fine_succ {total k : Nat} {r : Option Block} {reads : List (Option Block)} :
    Fine o blockSz total (r :: reads) (k + 1) ↔ Fine o blockSz (total + 1) reads k := by
  rw [Fine, Fine, List.getElem?_cons_succ, ← Nat.add_assoc, Nat.add_right_comm]

/-- The loop blocks for want of answers, or meets one that is not fine and returns -1, or goes
through all blocks. -/
theorem readLoop_cases (o : Options) (blockSz total count : Nat) (ret₀ : Int)
    (reads : List (Option Block)) :
    (readLoop o blockSz total count ret₀ reads = none ∧ reads.length < count) ∨
    (readLoop o blockSz total count ret₀ reads = some (-1) ∧
      ∃ k < count, ¬ Fine o blockSz total reads k) ∨
    (∃ ret, readLoop o blockSz total count ret₀ reads = some ret ∧ (ret = ret₀ ∨ ret = blockSz)) ∧
      ∀ k < count, Fine o blockSz total reads k := by
  induction count generalizing total ret₀ reads with
  | zero =>
    right
    right
    exact ⟨⟨ret₀, rfl, Or.inl rfl⟩, fun k hk => absurd hk (Nat.not_lt_zero k)⟩
  | succ count ih =>
    cases reads with
    | nil => exact Or.inl ⟨rfl, Nat.succ_pos count⟩
    | cons r reads =>
      cases r with
      | none =>
        right
        left
        refine ⟨rfl, 0, Nat.succ_pos count, ?_⟩
        intro h
        obtain ⟨buf, hbuf, -⟩ := h
        cases hbuf
      | some buf =>
        by_cases haccepts : Accepts o blockSz total buf
        · rw [readLoop_accepts haccepts]
          rcases ih (total + 1) blockSz reads with ⟨hrun, hlen⟩ | ⟨hrun, k, hk, hbad⟩ | ⟨hrun, hall⟩
          · exact Or.inl ⟨hrun, Nat.succ_lt_succ hlen⟩
          · right
            left
            exact ⟨hrun, k + 1, Nat.succ_lt_succ hk, fun h => hbad (fine_succ.mp h)⟩
          · right
            right
            obtain ⟨ret, hret, hends⟩ := hrun
            refine ⟨⟨ret, hret, Or.inr (hends.elim id id)⟩, ?_⟩
            intro k hk
            cases k with
            | zero => exact fine_zero.mpr haccepts
            | succ k => exact fine_succ.mpr (hall k (Nat.lt_of_succ_lt_succ hk))
        · right
          left
          refine ⟨readLoop_rejects haccepts count ret₀ reads, 0, Nat.succ_pos count, ?_⟩
          exact fun h => haccepts (fine_zero.mp h)

theorem pdmaRead_result {ret : Int} {reads : List (Option Block)}
    (h : pdmaRead o blockSz reads = some ret) : ret = -1 ∨ ret = 0 ∨ ret = blockSz := by
  rw [pdmaRead] at h
  rcases readLoop_cases o blockSz 0 o.count 0 reads with
    ⟨hrun, -⟩ | ⟨hrun, -⟩ | ⟨⟨r, hrun, hr⟩, -⟩
  · rw [hrun] at h
    cases h
  · rw [hrun] at h
    exact Or.inl (Option.some.inj h).symm
  · rw [hrun] at h
    obtain rfl := Option.some.inj h
    exact Or.inr hr

theorem pdmaRead_ends {reads : List (Option Block)} (h : o.count ≤ reads.length) :
    ∃ ret, pdmaRead o blockSz reads = some ret := by
  rw [pdmaRead]
  rcases readLoop_cases o blockSz 0 o.count 0 reads with
    ⟨-, hlen⟩ | ⟨hrun, -⟩ | ⟨⟨ret, hrun, -⟩, -⟩
  · exact absurd h (Nat.not_le_of_lt hlen)
  · exact ⟨-1, hrun⟩
  · exact ⟨ret, hrun⟩

theorem passes_iff_fine (reads : List (Option Block)) :
    Passes o blockSz reads ↔ ∀ k < o.count, Fine o blockSz 0 reads k := by
  rw [Passes, pdmaRead]
  rcases readLoop_cases o blockSz 0 o.count 0 reads with
    ⟨hrun, hlen⟩ | ⟨hrun, k, hk, hbad⟩ | ⟨⟨ret, hrun, hret⟩, hall⟩
  · rw [hrun]
    apply iff_of_false
    · intro h
      obtain ⟨ret, hret, -⟩ := h
      cases hret
    · intro hall
      obtain ⟨buf, hbuf, -⟩ := hall reads.length hlen
      rw [List.getElem?_eq_none (Nat.le_refl _)] at hbuf
      cases hbuf
  · rw [hrun]
    apply iff_of_false
    · intro h
      obtain ⟨ret, hret, hne⟩ := h
      exact hne (Option.some.inj hret).symm
    · exact fun hall => hbad (hall k hk)
  · have hne : ret ≠ -1 := by
      rcases hret with rfl | rfl
      · decide
      · omega
    exact iff_of_true ⟨ret, hrun, hne⟩ hall

theorem passes_iff_accepts (reads : List (Option Block)) : Passes o blockSz reads ↔
    ∀ k < o.count, ∃ buf, reads[k]? = some (some buf) ∧ Accepts o blockSz k buf := by
  rw [passes_iff_fine]
  simp only [Fine, Nat.zero_add]

/-- Where a whole block leaves nothing in the low byte the exit status tells a pass. -/
theorem exitStatus_eq_zero_iff (hsize : 256 ∣ blockSz) (reads : List (Option Block)) :
    (∃ ret, pdmaRead o blockSz reads = some ret ∧ exitStatus ret = 0) ↔ Passes o blockSz reads := by
  obtain ⟨m, rfl⟩ := hsize
  apply exists_congr
  intro ret
  apply and_congr_right
  intro hrun
  rcases pdmaRead_result hrun with rfl | rfl | rfl
  · decide
  · decide
  · have hmod : ((256 * m : Nat) : Int) % 256 = 0 := by omega
    have hne : ((256 * m : Nat) : Int) ≠ -1 := by omega
    exact iff_of_true (by rw [exitStatus, hmod]; rfl) hne

theorem accepts_unique {w k : Nat} {b c : Block} (hpt : o.checkPt = true)
    (hb : Accepts o (4 * w) k b) (hc : Accepts o (4 * w) k c) : b = c := by
  apply eq_of_chunks hb.1 hc.1
  intro i hi
  have hcheckb := hb.2 hpt
  have hcheckc := hc.2 hpt
  simp only [checkPattern, List.all_eq_true, List.mem_range, beq_iff_eq] at hcheckb hcheckc
  have hi' : i < 4 * w / 4 := by omega
  have hval : val32 b i = val32 c i := (hcheckb i hi').trans (hcheckc i hi').symm
  have hlen : ∀ {d : Block}, d.length = 4 * w → (chunk 4 d i).length = 4 := by
    intro d hd
    rw [chunk, List.length_take, List.length_drop, hd]
    omega
  have hlt : ∀ {d : Block}, d.length = 4 * w → leVal (chunk 4 d i) < 2 ^ 32 := by
    intro d hd
    have hle := leVal_lt (chunk 4 d i)
    rw [hlen hd] at hle
    exact hle
  apply leVal_inj ((hlen hb.1).trans (hlen hc.1).symm)
  have hnat := congrArg UInt32.toNat hval
  rwa [val32, val32, UInt32.toNat_ofNat_of_lt' (hlt hb.1), UInt32.toNat_ofNat_of_lt' (hlt hc.1)]
    at hnat

/-! ## The transfer of one repeated block -/

theorem writeLoop_loopBack (blockSz : Nat) (buf : Block) (i count : Nat) :
    writeLoop blockSz buf (fun _ => blockSz) i count = List.replicate count buf := by
  induction count generalizing i with
  | zero => rfl
  | succ count ih => simp [writeLoop, ih, List.replicate_succ]

theorem faithful_replicate_iff {reads : List (Option Block)} :
    Faithful o (List.replicate o.count buf) reads ↔
      ∀ k < o.count, reads[k]? = some (some buf) := by
  rw [Faithful, List.map_replicate]
  constructor
  · intro h k hk
    have hget := congrArg (·[k]?) h
    simpa [List.getElem?_take, List.getElem?_replicate, hk] using hget
  · intro h
    apply List.ext_getElem?
    intro k
    rw [List.getElem?_take, List.getElem?_replicate]
    split
    · exact h k ‹_›
    · rfl

/-- The two programs agree on a block that is written `count` times exactly when the reader
accepts it each time. -/
theorem agrees_replicate_iff {w : Nat} (hpt : o.checkPt = true) :
    Agrees o (4 * w) (List.replicate o.count buf) ↔ ∀ k < o.count, Accepts o (4 * w) k buf := by
  constructor
  · intro h k hk
    have hpasses := (h.passes_iff (List.replicate o.count (some buf))).mpr
      (faithful_replicate_iff.mpr fun k hk => by rw [List.getElem?_replicate, if_pos hk])
    obtain ⟨b, hb, haccepts⟩ := (passes_iff_accepts _).mp hpasses k hk
    rw [List.getElem?_replicate, if_pos hk] at hb
    obtain rfl : buf = b := Option.some.inj (Option.some.inj hb)
    exact haccepts
  · intro h
    have hiff : ∀ reads, Passes o (4 * w) reads ↔ Faithful o (List.replicate o.count buf) reads := by
      intro reads
      rw [passes_iff_accepts, faithful_replicate_iff]
      constructor
      · intro hall k hk
        obtain ⟨b, hb, haccepts⟩ := hall k hk
        rw [hb, accepts_unique hpt haccepts (h k hk)]
      · exact fun hall k hk => ⟨buf, hall k hk, h k hk⟩
    refine ⟨hiff, ?_, ?_⟩
    · intro reads hlen hunfaithful
      have hends : ∃ ret, pdmaRead o (4 * w) reads = some ret := pdmaRead_ends hlen
      obtain ⟨ret, hrun⟩ := hends
      by_cases hret : ret = -1
      · rw [← hret]
        exact hrun
      · exact absurd ((hiff reads).mp ⟨ret, hrun, hret⟩) hunfaithful
    · intro hsize reads
      rw [exitStatus_eq_zero_iff hsize, hiff]

end

/-! ## The block of the file -/

/-- The `j`-th line of 64 characters as a binary number. -/
def fileWord (file : List UInt8) (j : Nat) : Nat :=
  (List.range 64).foldl (fun n i => 2 * n + if file[65 * j + i]? = some 49 then 1 else 0) 0

/-- The `i`-th word of the buffer: half of a number of the file, or what `malloc` found. -/
def sourceWord (file : List UInt8) (heap : Nat → UInt8) (blockSz i : Nat) : UInt32 :=
  if i / 2 < blockSz / 8 then UInt32.ofNat (fileWord file (i / 2) / 2 ^ (32 * (i % 2)))
  else UInt32.ofNat (leVal (window heap (4 * i) 4))

theorem fgetc_fst (file : List UInt8) : (fgetc file).1 = file[0]? := by
  cases file <;> rfl

theorem fgetc_snd (file : List UInt8) : (fgetc file).2 = file.drop 1 := by
  cases file <;> rfl

theorem readBits_snd (left : Nat) (k : UInt64) (file : List UInt8) :
    (readBits left k file).2 = file.drop left := by
  induction left generalizing k file with
  | zero => rfl
  | succ left ih => rw [readBits, ih, fgetc_snd, List.drop_drop, Nat.add_comm]

theorem shiftLeft_one_add (n : Nat) (b : Bool) :
    (UInt64.ofNat n <<< 1) + (if b then 1 else 0) = UInt64.ofNat (2 * n + if b then 1 else 0) := by
  apply UInt64.toNat_inj.mp
  cases b
  · simp [Nat.shiftLeft_eq]
    omega
  · simp [Nat.shiftLeft_eq]
    omega

theorem readBits_fst (left n : Nat) (file : List UInt8) :
    (readBits left (UInt64.ofNat n) file).1 = UInt64.ofNat ((List.range left).foldl
      (fun n i => 2 * n + if file[i]? = some 49 then 1 else 0) n) := by
  induction left generalizing n file with
  | zero => rfl
  | succ left ih =>
    have hshift := shiftLeft_one_add n (decide (file[0]? = some 49))
    simp only [decide_eq_true_eq] at hshift
    rw [readBits, fgetc_fst, fgetc_snd, hshift, ih, List.range_succ_eq_map, List.foldl_cons,
      List.foldl_map]
    simp only [List.getElem?_drop, Nat.add_comm 1]

theorem fileWord_drop (file : List UInt8) (j : Nat) :
    fileWord (file.drop 65) j = fileWord file (j + 1) := by
  unfold fileWord
  congr 1
  funext n i
  rw [List.getElem?_drop, show 65 + (65 * j + i) = 65 * (j + 1) + i by omega]

theorem fillWords_eq (n : Nat) (file : List UInt8) :
    fillWords n file = (List.range n).flatMap fun j => leBytes 8 (fileWord file j) := by
  induction n generalizing file with
  | zero => rfl
  | succ n ih =>
    have hword : (readBits 64 0 file).1 = UInt64.ofNat (fileWord file 0) := by
      rw [fileWord]
      simp only [Nat.mul_zero, Nat.zero_add]
      exact readBits_fst 64 0 file
    have hbytes : leBytes 8 (UInt64.ofNat (fileWord file 0)).toNat = leBytes 8 (fileWord file 0) :=
      leBytes_mod 8 (fileWord file 0)
    have hnext : ∀ j, fileWord ((file.drop 64).drop 1) j = fileWord file (j + 1) := by
      intro j
      rw [List.drop_drop]
      exact fileWord_drop file j
    rw [fillWords, hword, hbytes, readBits_snd, fgetc_snd, ih, List.range_succ_eq_map,
      List.flatMap_cons, List.flatMap_map]
    simp only [hnext]

theorem length_fillBuf (blockSz : Nat) (file : List UInt8) (heap : Nat → UInt8) :
    (fillBuf blockSz file heap).length = blockSz := by
  rw [fillBuf, fillWords_eq, List.length_append, length_window,
    length_flatMap_range fun j => length_leBytes 8 _]
  omega

theorem leVal_half (v b : Nat) (hb : b < 2) :
    UInt32.ofNat (leVal (if b = 0 then (leBytes 8 v).take 4 else (leBytes 8 v).drop 4))
      = UInt32.ofNat (v / 2 ^ (32 * b)) := by
  have hsplit : leBytes 8 v = leBytes 4 v ++ leBytes 4 (v / 256 ^ 4) := leBytes_add 4 4 v
  have hval : ∀ u, UInt32.ofNat (leVal (leBytes 4 u)) = UInt32.ofNat u := by
    intro u
    rw [leVal_leBytes_mod]
    apply UInt32.toNat_inj.mp
    simp
  rw [hsplit]
  obtain rfl | rfl : b = 0 ∨ b = 1 := by omega
  · rw [if_pos rfl, List.take_left' (length_leBytes 4 v), hval]
    simp
  · rw [if_neg (by decide), List.drop_left' (length_leBytes 4 v), hval]
    rfl

theorem val32_fillBuf {w i : Nat} (hi : i < w) (file : List UInt8) (heap : Nat → UInt8) :
    val32 (fillBuf (4 * w) file heap) i = sourceWord file heap (4 * w) i := by
  have hlen : (fillWords (4 * w / 8) file).length = 8 * (4 * w / 8) := by
    rw [fillWords_eq]
    exact length_flatMap_range (fun j => length_leBytes 8 _) _
  rw [val32, fillBuf, sourceWord]
  split
  case isTrue hhalf =>
    have hchunk : chunk 8 (fillWords (4 * w / 8) file) (i / 2) = leBytes 8 (fileWord file (i / 2)) := by
      rw [fillWords_eq]
      exact chunk_flatMap_range (fun j => length_leBytes 8 _) hhalf
    rw [chunk_append_left (by omega), ← leVal_half _ (i % 2) (Nat.mod_lt i (by decide)), ← hchunk]
    split
    case isTrue heven =>
      have hi2 : i = 2 * (i / 2) := by omega
      rw [← chunk_even 4, ← hi2]
    case isFalse hodd =>
      have hi2 : i = 2 * (i / 2) + 1 := by omega
      rw [← chunk_odd 4, ← hi2]
  case isFalse hlast =>
    have hi2 : 8 * (4 * w / 8) = 4 * i := by omega
    have hsize : 4 * w - 4 * i = 4 := by omega
    rw [hi2] at hlen ⊢
    rw [chunk_append_right hlen (Nat.le_refl i), hsize, Nat.sub_self, chunk, Nat.mul_zero,
      List.drop_zero, List.take_of_length_le (by rw [length_window])]

/-! ## When they agree -/

/-- The 64-bit arithmetic of `start_pt` loses nothing that the 32 bits keep. -/
theorem startPt_eq (o : Options) (blockSz k : Nat) :
    startPt o blockSz k = o.pattern + o.inc * UInt32.ofNat (blockSz / 4) * UInt32.ofNat k := by
  rw [startPt, UInt64.toUInt32_add, UInt64.toUInt32_mul, UInt32.toUInt32_toUInt64,
    UInt32.toUInt32_toUInt64, UInt64.toUInt32_ofNat']

theorem accepts_fillBuf_iff {o : Options} (hpt : o.checkPt = true) {w k : Nat} {file : List UInt8}
    {heap : Nat → UInt8} : Accepts o (4 * w) k (fillBuf (4 * w) file heap) ↔
      ∀ i < w, sourceWord file heap (4 * w) i
        = o.pattern + o.inc * UInt32.ofNat w * UInt32.ofNat k + UInt32.ofNat i * o.inc := by
  have hw : 4 * w / 4 = w := by omega
  simp only [Accepts, length_fillBuf, true_and, hpt, forall_const, checkPattern, List.all_eq_true,
    List.mem_range, beq_iff_eq, hw, startPt_eq]
  constructor
  · intro h i hi
    rw [← val32_fillBuf hi]
    exact h i hi
  · intro h i hi
    rw [val32_fillBuf hi]
    exact h i hi

/-- One block repeated is the pattern when it is its first block and the pattern does not move
on from block to block. -/
theorem repeats_iff (pattern inc : UInt32) (count w : Nat) (word : Nat → UInt32) :
    (∀ k < count, ∀ i < w,
      word i = pattern + inc * UInt32.ofNat w * UInt32.ofNat k + UInt32.ofNat i * inc) ↔
    count = 0 ∨ (∀ i < w, word i = pattern + UInt32.ofNat i * inc) ∧
      (count ≤ 1 ∨ inc * UInt32.ofNat w = 0) := by
  constructor
  · intro h
    rcases Nat.eq_zero_or_pos count with hzero | hpos
    · exact Or.inl hzero
    · right
      have hfirst : ∀ i < w, word i = pattern + UInt32.ofNat i * inc := by
        intro i hi
        simpa using h 0 hpos i hi
      refine ⟨hfirst, ?_⟩
      rcases Nat.lt_or_ge 1 count with hmore | hone
      · right
        rcases Nat.eq_zero_or_pos w with rfl | hw
        · simp
        · have hnext := h 1 hmore 0 hw
          rw [hfirst 0 hw] at hnext
          simpa using hnext
      · exact Or.inl hone
  · intro h k hk i hi
    rcases h with rfl | ⟨hfirst, hstill⟩
    · exact absurd hk (Nat.not_lt_zero k)
    · rw [hfirst i hi]
      rcases hstill with hone | hstill
      · obtain rfl : k = 0 := by omega
        simp
      · rw [hstill]
        simp

/-- Over a loop-back device `pdma-read` checks what `pdma-write` sent, for blocks of any multiple
of four bytes, if and only if no block is sent, or the file starts with the first block of the
pattern and the pattern is the same in every block. -/
theorem rw_agrees_iff (pattern inc : UInt32) (count w : Nat) (file : List UInt8)
    (heap : Nat → UInt8) :
    Agrees { pattern, checkPt := true, inc, count } (4 * w)
      (pdmaWrite { pattern, checkPt := true, inc, count } (4 * w) file heap fun _ => (4 * w : Nat)) ↔
    count = 0 ∨ (∀ i < w, sourceWord file heap (4 * w) i = pattern + UInt32.ofNat i * inc) ∧
      (count ≤ 1 ∨ inc * UInt32.ofNat w = 0) := by
  rw [pdmaWrite, writeLoop_loopBack, ← repeats_iff]
  refine (agrees_replicate_iff rfl).trans ?_
  apply forall_congr'
  intro k
  exact imp_congr_right fun _ => accepts_fillBuf_iff rfl

/-- The options of the script with blocks of 4096 bytes: the second block is reported though
the device returned it unchanged. -/
theorem faithful_transfer_fails :
    ¬ Agrees { pattern := 0, checkPt := true, inc := 1, count := 2 } (4 * 1024)
      (pdmaWrite { pattern := 0, checkPt := true, inc := 1, count := 2 } (4 * 1024) []
        (fun _ => 0) fun _ => (4 * 1024 : Nat)) := by
  rw [pdmaWrite, writeLoop_loopBack]
  intro h
  have hall := (agrees_replicate_iff rfl).mp h
  have hfirst := (accepts_fillBuf_iff rfl).mp (hall 0 (by decide)) 0 (by decide)
  have hsecond := (accepts_fillBuf_iff rfl).mp (hall 1 (by decide)) 0 (by decide)
  exact absurd (hfirst.symm.trans hsecond) (by decide)

end PdmaXen.Tools
