import Mathlib.Algebra.Group.Nat.Defs
import Mathlib.Data.List.Basic

/-!
# Byte memories

Little-endian numbers, windows of a memory and the blocks they are cut into. A
buffer is a total map from offsets to bytes; a memory that can fault answers
`none` where nothing is mapped.
-/

namespace PdmaXen.Bytes
set_option autoImplicit false

/-- The `width` low bytes of a number, least significant first. -/
def leBytes : Nat → Nat → List UInt8
  | 0, _ => []
  | width + 1, v => UInt8.ofNat v :: leBytes width (v / 256)

def leVal : List UInt8 → Nat
  | [] => 0
  | b :: bs => b.toNat + 256 * leVal bs

@[simp] theorem length_leBytes (width v : Nat) : (leBytes width v).length = width := by
  induction width generalizing v with
  | zero => rfl
  | succ width ih => simp [leBytes, ih]

theorem leVal_leBytes {width v : Nat} (h : v < 256 ^ width) : leVal (leBytes width v) = v := by
  induction width generalizing v with
  | zero =>
    have : v = 0 := by simpa using h
    simp [leBytes, leVal, this]
  | succ width ih =>
    have hlow : (UInt8.ofNat v).toNat = v % 256 := by simp
    have hhigh : v / 256 < 256 ^ width := by
      rw [Nat.pow_succ] at h
      omega
    rw [leBytes, leVal, ih hhigh, hlow]
    omega

theorem leBytes_leVal (bs : List UInt8) : leBytes bs.length (leVal bs) = bs := by
  induction bs with
  | nil => rfl
  | cons b bs ih =>
    have hlt := b.toNat_lt
    have hdiv : (b.toNat + 256 * leVal bs) / 256 = leVal bs := by omega
    have hmod : UInt8.ofNat (b.toNat + 256 * leVal bs) = b := by
      apply UInt8.toNat_inj.mp
      simp only [UInt8.toNat_ofNat']
      omega
    rw [List.length_cons, leBytes, leVal, hdiv, hmod, ih]

theorem leVal_lt (bs : List UInt8) : leVal bs < 256 ^ bs.length := by
  induction bs with
  | nil => simp [leVal]
  | cons b bs ih =>
    have hlt := b.toNat_lt
    rw [leVal, List.length_cons, Nat.pow_succ]
    omega

theorem leVal_leBytes_mod (width v : Nat) : leVal (leBytes width v) = v % 256 ^ width := by
  induction width generalizing v with
  | zero => simp [leBytes, leVal, Nat.mod_one]
  | succ width ih =>
    have hlow : (UInt8.ofNat v).toNat = v % 256 := by simp
    rw [leBytes, leVal, ih, hlow, Nat.pow_succ', Nat.mod_mul]

theorem leBytes_add (a b v : Nat) : leBytes (a + b) v = leBytes a v ++ leBytes b (v / 256 ^ a) := by
  induction a generalizing v with
  | zero => simp [leBytes]
  | succ a ih =>
    rw [Nat.succ_add, leBytes, ih, leBytes, Nat.div_div_eq_div_mul, ← Nat.pow_succ',
      List.cons_append]

theorem leBytes_mod (width v : Nat) : leBytes width (v % 256 ^ width) = leBytes width v := by
  have h := leBytes_leVal (leBytes width v)
  rwa [length_leBytes, leVal_leBytes_mod] at h

theorem leVal_inj {d e : List UInt8} (hlen : d.length = e.length) (h : leVal d = leVal e) :
    d = e := by
  rw [← leBytes_leVal d, ← leBytes_leVal e, hlen, h]

/-! ## Chunks -/

/-- The `i`-th piece of `width` bytes. -/
def chunk (width : Nat) (d : List UInt8) (i : Nat) : List UInt8 := (d.drop (width * i)).take width

section Chunks
variable {width n i : Nat} {d e : List UInt8} {f : Nat → List UInt8}

theorem chunk_append_left (h : width * (i + 1) ≤ d.length) :
    chunk width (d ++ e) i = chunk width d i := by
  rw [Nat.mul_succ] at h
  rw [chunk, chunk, List.drop_append_of_le_length (by omega), List.take_append_of_le_length]
  rw [List.length_drop]
  omega

theorem chunk_append_right (h : d.length = width * n) (hi : n ≤ i) :
    chunk width (d ++ e) i = chunk width e (i - n) := by
  have hle : width * n ≤ width * i := Nat.mul_le_mul_left width hi
  rw [chunk, chunk, List.drop_append, List.drop_eq_nil_of_le (by omega), h, Nat.mul_sub]
  rfl

theorem length_flatMap_range (hf : ∀ i, (f i).length = width) (n : Nat) :
    ((List.range n).flatMap f).length = width * n := by
  induction n with
  | zero => rfl
  | succ n ih => simp [List.range_succ, ih, hf, Nat.mul_succ]

theorem chunk_flatMap_range (hf : ∀ i, (f i).length = width) (hi : i < n) :
    chunk width ((List.range n).flatMap f) i = f i := by
  induction n with
  | zero => exact absurd hi (Nat.not_lt_zero i)
  | succ n ih =>
    have hlen := length_flatMap_range hf n
    rw [List.range_succ, List.flatMap_append, List.flatMap_singleton]
    rcases Nat.lt_succ_iff_lt_or_eq.mp hi with hlt | rfl
    · rw [chunk_append_left, ih hlt]
      rw [hlen]
      exact Nat.mul_le_mul_left width hlt
    · rw [chunk_append_right hlen (Nat.le_refl i), Nat.sub_self, chunk, Nat.mul_zero, List.drop_zero,
        ← hf i, List.take_length]

theorem chunk_even (width : Nat) (d : List UInt8) (i : Nat) :
    chunk width d (2 * i) = (chunk (2 * width) d i).take width := by
  rw [chunk, chunk, List.take_take, Nat.min_eq_left (by omega), Nat.mul_left_comm, Nat.mul_assoc]

theorem chunk_odd (width : Nat) (d : List UInt8) (i : Nat) :
    chunk width d (2 * i + 1) = (chunk (2 * width) d i).drop width := by
  rw [chunk, chunk, List.drop_take, List.drop_drop, Nat.mul_succ, Nat.mul_left_comm, Nat.mul_assoc,
    show 2 * width - width = width by omega]

theorem eq_of_chunks (hd : d.length = width * n) (he : e.length = width * n)
    (h : ∀ i, i < n → chunk width d i = chunk width e i) : d = e := by
  induction n generalizing d e with
  | zero => rw [List.length_eq_zero_iff.mp hd, List.length_eq_zero_iff.mp he]
  | succ n ih =>
    have hhead : d.take width = e.take width := by simpa [chunk] using h 0 (Nat.succ_pos n)
    rw [Nat.mul_succ] at hd he
    have htail : d.drop width = e.drop width := by
      apply ih
      · rw [List.length_drop]
        omega
      · rw [List.length_drop]
        omega
      · intro i hi
        have hnext := h (i + 1) (by omega)
        simpa [chunk, Nat.mul_succ, Nat.add_comm] using hnext
    rw [← List.take_append_drop width d, ← List.take_append_drop width e, hhead, htail]

end Chunks

def window (m : Nat → UInt8) (start count : Nat) : List UInt8 :=
  (List.range count).map fun i => m (start + i)

@[simp] theorem length_window (m : Nat → UInt8) (start count : Nat) :
    (window m start count).length = count := by
  simp [window]

/-- The buffer after `d` is put at `off`. -/
def place (m : Nat → UInt8) (off : Nat) (d : List UInt8) : Nat → UInt8 :=
  fun i => if i < off then m i else d.getD (i - off) (m i)

theorem window_place (m : Nat → UInt8) (off : Nat) {d : List UInt8} {start count : Nat}
    (h : start + count ≤ d.length) :
    window (place m off d) (off + start) count = (d.drop start).take count := by
  apply List.ext_getElem
  · simp
    omega
  · intro i hi hi'
    have hlt : start + i < d.length := by
      simp at hi
      omega
    have hoff : ¬ off + start + i < off := by omega
    have hsub : off + start + i - off = start + i := by omega
    simp [window, place, hoff, hsub, List.getD_eq_getElem?_getD, hlt]

/-- The first `k` bytes of `f`, when all of them can be read. -/
def gather (f : Nat → Option UInt8) : Nat → Option (List UInt8)
  | 0 => some []
  | k + 1 => do
    let bs ← gather f k
    let b ← f k
    return bs ++ [b]

end PdmaXen.Bytes
