import PdmaXen.Turbo.Encoder

/-!
# The encoded frame

`getoutput` of `tool.c` and the framing code of `encode.c`: groups of eight bytes with
three bits each, the tails, the end marker, the byte order and the padding.
-/

namespace PdmaXen.Turbo
set_option autoImplicit false
open CInt Recursive

/-! ## `getoutput` -/

/-- `fscanf(input_fd, "%d ", x_buf)` stores a whole `int`, lowest byte first, where `x_buf` points
to one byte. -/
def scanNumber (x_byte : List UInt8) (i : Nat) (v : UInt8) : Option (List UInt8) := do
  let x_byte ← store x_byte i v
  let x_byte ← store x_byte (i + 1 : Nat) 0
  let x_byte ← store x_byte (i + 2 : Nat) 0
  store x_byte (i + 3 : Nat) 0

/-- The loop that reads the file into `malloc(K_byte + spare)` cells; the source has 0 to spare. -/
def readData (spare : Nat) (message : List UInt8) : Option (List UInt8) :=
  forLoop message.length (fun x_byte i => do
    let v ← load message i
    scanNumber x_byte i v) (List.replicate (message.length + spare) 0)

/-- `(x_byte[i] & (1 << (7 - b))) >> (7 - b)`. -/
def bitOf (v : UInt8) (b : Nat) : UInt8 :=
  (v &&& (1 <<< UInt8.ofNat (7 - b))) >>> UInt8.ofNat (7 - b)

/-- A byte becomes eight cells with a bit each; `x_tmp` moves on by one in each round. -/
def byteToBits (x_byte : List UInt8) (K_byte : Nat) (x : List UInt8) : Option (List UInt8) :=
  forLoop K_byte (fun x i =>
    forLoop 8 (fun x b => do
      let v ← load x_byte i
      store x (8 * i + b : Nat) (bitOf v b)) x) x

/-- The output buffer and the place of `y_buf` in it. -/
structure Output where
  y : List UInt8
  y_buf : Nat

def Output.put (out : Output) (v : UInt8) : Option Output := do
  let y ← store out.y out.y_buf v
  return ⟨y, out.y_buf + 1⟩

def Output.triple (out : Output) (a b c : Option UInt8) : Option Output := do
  let out ← out.put (← a)
  let out ← out.put (← b)
  out.put (← c)

def Output.group (out : Output) (a b c : Option UInt8) : Option Output := do
  let out ← out.triple a b c
  return ⟨out.y, out.y_buf + 5⟩

/-- The writes of `y`: a group for each bit, then the twelve tail bits. -/
def writeOutput (x parity1 xinterleaved parity2 : List UInt8) (K : Nat) (y : List UInt8) :
    Option Output := do
  let out ← forLoop K (fun (out : Output) i =>
    out.group (load x i) (load parity1 i) (load parity2 i)) ⟨y, 0⟩
  let out ← out.group (load x K) (load parity1 K) (load x (K + 1 : Nat))
  let out ← out.group (load parity1 (K + 1 : Nat)) (load x (K + 2 : Nat))
    (load parity1 (K + 2 : Nat))
  let out ← out.group (load xinterleaved K) (load parity2 K) (load xinterleaved (K + 1 : Nat))
  out.triple (load parity2 (K + 1 : Nat)) (load xinterleaved (K + 2 : Nat))
    (load parity2 (K + 2 : Nat))

/-- `getoutput` with what `interleaver` left in `xinterleaved`. -/
def getoutput (spare : Nat) (message xinterleaved y : List UInt8) : Option (List UInt8) := do
  let K_bit ← IntType.fit .signed ((message.length : Int) * 8)
  let size ← IntType.fit .signed (K_bit + 3)
  let x_byte ← readData spare message
  let x ← byteToBits x_byte message.length (List.replicate size.toNat 0)
  let st1 ← encoder x K_bit (List.replicate size.toNat 0)
  let st2 ← encoder (xinterleaved ++ [0, 0, 0]) K_bit (List.replicate size.toNat 0)
  let out ← writeOutput st1.x st1.parity st2.x st2.parity K_bit.toNat y
  return out.y

/-! ## `main` of `encode.c` -/

/-- `code_bit = (K_byte << 3) + 4; encodelen = code_bit * 4 * 2`. -/
def codeLength (K_byte : Int) : Option Int := do
  let b ← IntType.fit .signed (K_byte * 8)
  let code_bit ← IntType.fit .signed (b + 4)
  let c ← IntType.fit .signed (code_bit * 4)
  IntType.fit .signed (c * 2)

/-- `count`, from `unsigned` operations. -/
def blockCount (encodelen wt_block_sz : Nat) : Nat :=
  if encodelen % wt_block_sz = 0 then encodelen / wt_block_sz else encodelen / wt_block_sz + 1

def level (b : UInt8) : UInt8 := if b = 1 then 0x7f else 0x80

def mapLevels (encodelen : Nat) (outbuf : List UInt8) : Option (List UInt8) :=
  forLoop encodelen (fun outbuf i => do
    let b ← load outbuf i
    store outbuf i (level b)) outbuf

/-- `for (i = 0; i < encodelen; i += 8)`, and in each round `j` counts down from 7. -/
def swapBytes (encodelen : Nat) (outbuf buf : List UInt8) : Option (List UInt8) :=
  forLoop ((encodelen + 7) / 8) (fun buf g =>
    forLoop 8 (fun buf t => do
      let b ← load outbuf ((8 * g : Int) + (7 - t))
      store buf (8 * g + t : Nat) b) buf) buf

/-- What `main` hands to `write`, block by block. -/
def encodeFrame (spare : Nat) (message xinterleaved : List UInt8) (wt_block_sz : UInt32) :
    Option (List UInt8) := do
  let encodelen ← codeLength message.length
  if wt_block_sz = 0 then none
  else
    let size ← IntType.fit .unsigned
      (blockCount encodelen.toNat wt_block_sz.toNat * wt_block_sz.toNat : Nat)
    let outbuf ← getoutput spare message xinterleaved (List.replicate encodelen.toNat 0)
    let outbuf ← mapLevels encodelen.toNat outbuf
    let outbuf ← store outbuf (encodelen - 5) 0x81
    swapBytes encodelen.toNat outbuf (List.replicate size.toNat 0)

/-! ## Reading the message -/

def messageBits (message : List UInt8) (j : Nat) : UInt8 := bitOf (message.getD (j / 8) 0) (j % 8)

theorem scanNumber_eq_some {x_byte x_byte' : List UInt8} {i : Nat} {v : UInt8}
    (h : scanNumber x_byte i v = some x_byte') :
    i + 3 < x_byte.length ∧ x_byte'.length = x_byte.length := by
  unfold scanNumber at h
  simp only [Option.bind_eq_bind, Option.bind_eq_some_iff] at h
  obtain ⟨m0, h0, m1, h1, m2, h2, h3⟩ := h
  have hlen0 := (store_eq_some h0).2.2
  have hlen1 := (store_eq_some h1).2.2
  have hlen2 := (store_eq_some h2).2.2
  obtain ⟨-, hlt, hlen3⟩ := store_eq_some h3
  rw [Int.toNat_natCast] at hlt
  omega

/-- The number for the last cell, and those for the two before it, reach behind `x_byte`. -/
theorem scanNumber_overruns {x_byte : List UInt8} {i : Nat} (h : x_byte.length ≤ i + 3)
    (v : UInt8) : scanNumber x_byte i v = none := by
  cases hscan : scanNumber x_byte i v with
  | none => rfl
  | some x_byte' =>
    have hlt := (scanNumber_eq_some hscan).1
    omega

theorem readData_overruns {spare : Nat} (hspare : spare < 3) {message : List UInt8}
    (h : message ≠ []) : readData spare message = none := by
  obtain ⟨n, hn⟩ := Nat.exists_eq_succ_of_ne_zero (mt List.length_eq_zero_iff.mp h)
  unfold readData
  rw [hn]
  apply forLoop_eq_none fun x_byte => x_byte.length = n + 1 + spare
  · rw [List.length_replicate]
  · intro i x_byte x_byte' hlen hround
    rw [Option.bind_eq_bind, Option.bind_eq_some_iff] at hround
    obtain ⟨v, -, hscan⟩ := hround
    rw [(scanNumber_eq_some hscan).2, hlen]
  · intro x_byte hlen
    rw [Option.bind_eq_bind, Option.bind_eq_none_iff]
    exact fun v _ => scanNumber_overruns (by omega) v

/-- The four bytes of a number: the first is the byte of the message, the others are zero as the
cells behind it are. -/
theorem scanNumber_eq {spare : Nat} (hspare : 3 ≤ spare) {message x_byte : List UInt8} {i : Nat}
    (hi : i < message.length)
    (h : FilledTo (message.length + spare) (fun _ => 0) (fun j => message.getD j 0) i x_byte) :
    ∃ x_byte', scanNumber x_byte i (message.getD i 0) = some x_byte' ∧
      FilledTo (message.length + spare) (fun _ => 0) (fun j => message.getD j 0) (i + 1)
        x_byte' := by
  obtain ⟨x_byte', hstore, hfilled⟩ := h.store (by omega) rfl
  refine ⟨x_byte', ?_, hfilled⟩
  unfold scanNumber
  simp only [Option.bind_eq_bind, hstore, Option.bind_some,
    hfilled.store_same (i := i + 1) (by omega) (by omega),
    hfilled.store_same (i := i + 2) (by omega) (by omega),
    hfilled.store_same (i := i + 3) (by omega) (by omega)]

theorem readData_eq {spare : Nat} (hspare : 3 ≤ spare) (message : List UInt8) :
    ∃ x_byte, readData spare message = some x_byte ∧ message.length ≤ x_byte.length ∧
      ∀ i < message.length, x_byte.getD i 0 = message.getD i 0 := by
  have hloop : ∃ x_byte, readData spare message = some x_byte ∧
      FilledTo (message.length + spare) (fun _ => 0) (fun j => message.getD j 0) message.length
        x_byte := by
    apply forLoop_induction (FilledTo (message.length + spare) (fun _ => 0)
      (fun j => message.getD j 0))
    · apply FilledTo.start List.length_replicate
      intro j hj
      simp [hj]
    · intro i x_byte hi h
      rw [load_of_lt hi 0]
      exact scanNumber_eq hspare hi h
  obtain ⟨x_byte, hrun, hfilled⟩ := hloop
  refine ⟨x_byte, hrun, by rw [hfilled.1]; omega, ?_⟩
  intro i hi
  rw [List.getD_eq_getElem?_getD, hfilled.2 i (by omega), if_pos hi, Option.getD_some]

theorem byteToBits_eq {message x_byte x : List UInt8} (hlen : message.length ≤ x_byte.length)
    (hbytes : ∀ i < message.length, x_byte.getD i 0 = message.getD i 0)
    (hx : 8 * message.length ≤ x.length) :
    ∃ x', byteToBits x_byte message.length x = some x' ∧
      FilledTo x.length (fun j => x.getD j 0) (messageBits message) (8 * message.length) x' := by
  apply forLoop_induction (fun i => FilledTo x.length (fun j => x.getD j 0) (messageBits message)
    (8 * i))
  · apply FilledTo.start rfl
    intro j hj
    simp [hj]
  · intro i x' hi h
    apply forLoop_induction (fun b => FilledTo x.length (fun j => x.getD j 0)
      (messageBits message) (8 * i + b)) 8 h
    intro b x'' hb h''
    rw [load_of_lt (by omega) 0, Option.bind_eq_bind, Option.bind_some, hbytes i hi]
    apply h''.store (by omega)
    have hdiv : (8 * i + b) / 8 = i := by omega
    have hmod : (8 * i + b) % 8 = b := by omega
    rw [messageBits, hdiv, hmod]

/-! ## Writing the groups -/

/-- The twelve tail bits, in the order of the standard. -/
def tailBits (x parity1 xinterleaved parity2 : List UInt8) (K : Nat) : List UInt8 :=
  [x.getD K 0, parity1.getD K 0, x.getD (K + 1) 0,
    parity1.getD (K + 1) 0, x.getD (K + 2) 0, parity1.getD (K + 2) 0,
    xinterleaved.getD K 0, parity2.getD K 0, xinterleaved.getD (K + 1) 0,
    parity2.getD (K + 1) 0, xinterleaved.getD (K + 2) 0, parity2.getD (K + 2) 0]

/-- The bit at place `o` of group `g`: systematic, first and second parity, and the tail behind. -/
def frameBit (x parity1 xinterleaved parity2 : List UInt8) (K g o : Nat) : UInt8 :=
  if g < K then
    match o with
    | 0 => x.getD g 0
    | 1 => parity1.getD g 0
    | _ => parity2.getD g 0
  else (tailBits x parity1 xinterleaved parity2 K).getD (3 * (g - K) + o) 0

theorem frameBit_tail (x parity1 xinterleaved parity2 : List UInt8) (K t o : Nat) :
    frameBit x parity1 xinterleaved parity2 K (K + t) o =
      (tailBits x parity1 xinterleaved parity2 K).getD (3 * t + o) 0 := by
  unfold frameBit
  rw [if_neg (by omega), Nat.add_sub_cancel_left]

/-- The cells of `y`: three bits at the start of each group of eight. -/
def outputCell (bitAt : Nat → Nat → UInt8) (j : Nat) : UInt8 :=
  if j % 8 < 3 then bitAt (j / 8) (j % 8) else 0

theorem outputCell_group (bitAt : Nat → Nat → UInt8) {g o : Nat} (ho : o < 3) :
    outputCell bitAt (8 * g + o) = bitAt g o := by
  have hdiv : (8 * g + o) / 8 = g := by omega
  have hmod : (8 * g + o) % 8 = o := by omega
  rw [outputCell, hdiv, hmod, if_pos ho]

theorem outputCell_filler (bitAt : Nat → Nat → UInt8) {j : Nat} (h : 3 ≤ j % 8) :
    outputCell bitAt j = 0 := if_neg (by omega)

def Output.Written (out : Output) (L : Nat) (bitAt : Nat → Nat → UInt8) (n : Nat) : Prop :=
  out.y_buf = n ∧ FilledTo L (fun _ => 0) (outputCell bitAt) n out.y

section Writing
variable {L n : Nat} {bitAt : Nat → Nat → UInt8} {out : Output}

theorem Output.Written.put (h : out.Written L bitAt n) (hn : n < L) {v : UInt8}
    (hv : v = outputCell bitAt n) :
    ∃ out', out.put v = some out' ∧ out'.Written L bitAt (n + 1) := by
  obtain ⟨hpos, hfilled⟩ := h
  obtain ⟨y, hstore, hfilled'⟩ := hfilled.store hn hv
  refine ⟨⟨y, n + 1⟩, ?_, rfl, hfilled'⟩
  simp only [Output.put, hpos, hstore, Option.bind_eq_bind, Option.bind_some, Option.pure_def]

theorem Output.Written.triple {g : Nat} (h : out.Written L bitAt (8 * g)) (hg : 8 * g + 3 ≤ L) :
    ∃ out', out.triple (some (bitAt g 0)) (some (bitAt g 1)) (some (bitAt g 2)) = some out' ∧
      out'.Written L bitAt (8 * g + 3) := by
  obtain ⟨out0, hput0, h0⟩ := h.put (by omega) (outputCell_group bitAt (o := 0) (by omega)).symm
  obtain ⟨out1, hput1, h1⟩ := h0.put (by omega) (outputCell_group bitAt (o := 1) (by omega)).symm
  obtain ⟨out2, hput2, h2⟩ := h1.put (by omega) (outputCell_group bitAt (o := 2) (by omega)).symm
  refine ⟨out2, ?_, h2⟩
  simp only [Output.triple, Option.bind_eq_bind, Option.bind_some, hput0, hput1, hput2]

theorem Output.Written.skip {m : Nat} (h : out.Written L bitAt n) (hm : n ≤ m)
    (hzero : ∀ j, n ≤ j → j < m → 3 ≤ j % 8) :
    Output.Written ⟨out.y, m⟩ L bitAt m := by
  refine ⟨rfl, h.2.skip hm ?_⟩
  intro j hj hjm
  exact (outputCell_filler bitAt (hzero j hj hjm)).symm

theorem Output.Written.group {g : Nat} (h : out.Written L bitAt (8 * g)) (hg : 8 * g + 3 ≤ L) :
    ∃ out', out.group (some (bitAt g 0)) (some (bitAt g 1)) (some (bitAt g 2)) = some out' ∧
      out'.Written L bitAt (8 * (g + 1)) := by
  obtain ⟨out', htriple, h'⟩ := h.triple hg
  refine ⟨⟨out'.y, 8 * (g + 1)⟩, ?_, h'.skip (by omega) (fun j hj hjm => by omega)⟩
  simp only [Output.group, htriple, Option.bind_eq_bind, Option.bind_some, Option.pure_def, h'.1]
  rfl

end Writing

theorem writeOutput_eq {x parity1 xinterleaved parity2 y : List UInt8} {K : Nat}
    (hx : x.length = K + 3) (h1 : parity1.length = K + 3) (hi : xinterleaved.length = K + 3)
    (h2 : parity2.length = K + 3) (hy : y.length = 8 * (K + 4)) (hzero : ∀ j < y.length, y[j]? = some 0) :
    ∃ out, writeOutput x parity1 xinterleaved parity2 K y = some out ∧
      out.y.length = 8 * (K + 4) ∧ ∀ j < 8 * (K + 4), out.y[j]? =
        some (outputCell (frameBit x parity1 xinterleaved parity2 K) j) := by
  have hloop : ∃ out : Output, forLoop K (fun (out : Output) i =>
      out.group (load x i) (load parity1 i) (load parity2 i)) ⟨y, 0⟩ = some out ∧
      out.Written (8 * (K + 4)) (frameBit x parity1 xinterleaved parity2 K) (8 * K) := by
    apply forLoop_induction (fun g (out : Output) =>
      out.Written (8 * (K + 4)) (frameBit x parity1 xinterleaved parity2 K) (8 * g))
    · exact ⟨rfl, FilledTo.start hy fun j hj => hzero j (by omega)⟩
    · intro g out hg h
      have hgroup := h.group (g := g) (by omega)
      simp only [frameBit, if_pos hg] at hgroup
      rw [load_of_lt (by omega) 0, load_of_lt (by omega) 0, load_of_lt (by omega) 0]
      exact hgroup
  obtain ⟨out0, hrun0, hw0⟩ := hloop
  obtain ⟨out1, hrun1, hw1⟩ := hw0.group (g := K + 0) (by omega)
  obtain ⟨out2, hrun2, hw2⟩ := hw1.group (g := K + 1) (by omega)
  obtain ⟨out3, hrun3, hw3⟩ := hw2.group (g := K + 2) (by omega)
  obtain ⟨out4, hrun4, hw4⟩ := hw3.triple (g := K + 3) (by omega)
  have hfull := (hw4.skip (m := 8 * (K + 4)) (by omega) (fun j hj hjm => by omega)).2.finish le_rfl
  refine ⟨out4, ?_, hfull⟩
  rw [frameBit_tail, frameBit_tail, frameBit_tail] at hrun1 hrun2 hrun3 hrun4
  have hgroup1 : out0.group (some (x.getD K 0)) (some (parity1.getD K 0))
      (some (x.getD (K + 1) 0)) = some out1 := hrun1
  have hgroup2 : out1.group (some (parity1.getD (K + 1) 0)) (some (x.getD (K + 2) 0))
      (some (parity1.getD (K + 2) 0)) = some out2 := hrun2
  have hgroup3 : out2.group (some (xinterleaved.getD K 0)) (some (parity2.getD K 0))
      (some (xinterleaved.getD (K + 1) 0)) = some out3 := hrun3
  have hgroup4 : out3.triple (some (parity2.getD (K + 1) 0)) (some (xinterleaved.getD (K + 2) 0))
      (some (parity2.getD (K + 2) 0)) = some out4 := hrun4
  unfold writeOutput
  rw [load_of_lt (i := K) (by omega) 0, load_of_lt (i := K) (by omega) 0,
    load_of_lt (i := K) (by omega) 0, load_of_lt (i := K) (by omega) 0,
    load_of_lt (i := K + 1) (by omega) 0, load_of_lt (i := K + 1) (by omega) 0,
    load_of_lt (i := K + 1) (by omega) 0, load_of_lt (i := K + 1) (by omega) 0,
    load_of_lt (i := K + 2) (by omega) 0, load_of_lt (i := K + 2) (by omega) 0,
    load_of_lt (i := K + 2) (by omega) 0, load_of_lt (i := K + 2) (by omega) 0,
    hrun0, Option.bind_eq_bind, Option.bind_some, hgroup1]
  simp only [Option.bind_some, hgroup2, hgroup3, hgroup4]

/-! ## The framing -/

theorem mapLevels_eq (outbuf : List UInt8) {n : Nat} (hlen : outbuf.length = n) :
    ∃ mapped, mapLevels n outbuf = some mapped ∧ mapped.length = n ∧
      ∀ j < n, mapped[j]? = some (level (outbuf.getD j 0)) := by
  have hloop : ∃ mapped, mapLevels n outbuf = some mapped ∧
      FilledTo n (fun j => outbuf.getD j 0) (fun j => level (outbuf.getD j 0)) n mapped := by
    apply forLoop_induction (FilledTo n (fun j => outbuf.getD j 0)
      (fun j => level (outbuf.getD j 0)))
    · apply FilledTo.start hlen
      intro j hj
      simp [hlen, hj]
    · intro i mapped hi h
      have hcell := h.2 i hi
      rw [if_neg (Nat.lt_irrefl i)] at hcell
      rw [load_natCast, hcell]
      exact h.store hi rfl
  obtain ⟨mapped, hrun, hfilled⟩ := hloop
  exact ⟨mapped, hrun, hfilled.finish le_rfl⟩

/-- The byte order is turned around in every group of eight; the rest of the buffer stays zero. -/
theorem swapBytes_eq (outbuf buf : List UInt8) (groups : Nat) (hout : outbuf.length = 8 * groups)
    (hbuf : 8 * groups ≤ buf.length) (hzero : ∀ j < buf.length, buf[j]? = some 0) :
    ∃ buf', swapBytes (8 * groups) outbuf buf = some buf' ∧
      FilledTo buf.length (fun _ => 0) (fun j => outbuf.getD (8 * (j / 8) + (7 - j % 8)) 0)
        (8 * groups) buf' := by
  unfold swapBytes
  rw [show (8 * groups + 7) / 8 = groups by omega]
  apply forLoop_induction (fun g => FilledTo buf.length (fun _ => 0)
    (fun j => outbuf.getD (8 * (j / 8) + (7 - j % 8)) 0) (8 * g))
  · exact FilledTo.start rfl hzero
  · intro g buf' hg h
    apply forLoop_induction (fun t => FilledTo buf.length (fun _ => 0)
      (fun j => outbuf.getD (8 * (j / 8) + (7 - j % 8)) 0) (8 * g + t)) 8 h
    intro t buf'' ht h''
    have hindex : (8 * (g : Int) + (7 - (t : Int))) = ((8 * g + (7 - t) : Nat) : Int) := by omega
    rw [hindex, load_of_lt (by omega) 0, Option.bind_eq_bind, Option.bind_some]
    apply h''.store (by omega)
    have hdiv : (8 * g + t) / 8 = g := by omega
    have hmod : (8 * g + t) % 8 = t := by omega
    rw [hdiv, hmod]

theorem codeLength_eq {K_byte : Nat} (h : 64 * K_byte + 32 ≤ 2147483647) :
    codeLength K_byte = some ↑(8 * (8 * K_byte + 4)) := by
  have h1 : IntType.InRange .signed ((K_byte : Int) * 8) := ⟨by omega, by omega⟩
  have h2 : IntType.InRange .signed ((K_byte : Int) * 8 + 4) := ⟨by omega, by omega⟩
  have h3 : IntType.InRange .signed (((K_byte : Int) * 8 + 4) * 4) := ⟨by omega, by omega⟩
  have h4 : IntType.InRange .signed (((K_byte : Int) * 8 + 4) * 4 * 2) := ⟨by omega, by omega⟩
  unfold codeLength
  rw [fit_bind h1, fit_bind h2, fit_bind h3, fit_eq_some h4]
  congr 1
  omega

theorem blockCount_bounds {n w : Nat} (hw : 0 < w) :
    n ≤ blockCount n w * w ∧ blockCount n w * w < n + w := by
  have hdiv := Nat.div_add_mod n w
  have hmod := Nat.mod_lt n hw
  rw [Nat.mul_comm] at hdiv
  unfold blockCount
  split
  · omega
  · rw [Nat.succ_mul]
    omega

theorem blockCount_fits {n w : Nat} (hw : 0 < w) (hn : 0 < n) (hn' : n ≤ 2147483647)
    (hw' : w < 4294967296) : IntType.InRange .unsigned ↑(blockCount n w * w) := by
  refine ⟨Int.natCast_nonneg _, ?_⟩
  rcases Nat.lt_or_ge n w with hlt | hge
  · have hone : blockCount n w = 1 := by
      rw [blockCount, Nat.mod_eq_of_lt hlt, if_neg (by omega), Nat.div_eq_of_lt hlt]
    rw [hone, Nat.one_mul]
    omega
  · have := (blockCount_bounds (n := n) hw).2
    omega

/-! ## The whole frame -/

/-- The vector `getoutput` interleaves and encodes. -/
def messageVector (message : List UInt8) : List UInt8 :=
  (List.range (8 * message.length)).map (messageBits message)

@[simp] theorem length_messageVector (message : List UInt8) :
    (messageVector message).length = 8 * message.length := by
  simp [messageVector]

theorem vector_of_filled {message x : List UInt8}
    (h : FilledTo (8 * message.length + 3) (fun _ => 0) (messageBits message) (8 * message.length)
      x) : x = messageVector message ++ [0, 0, 0] := by
  apply List.ext_getElem?
  intro j
  rcases Nat.lt_or_ge j (8 * message.length) with hlt | hge
  · rw [h.2 j (by omega), if_pos hlt, List.getElem?_append_left (by simpa using hlt)]
    simp [messageVector, hlt]
  · rw [List.getElem?_append_right (by simpa using hge), length_messageVector]
    rcases Nat.lt_or_ge j (8 * message.length + 3) with hlt | hge'
    · rw [h.2 j hlt, if_neg (by omega)]
      obtain hj | hj | hj : j = 8 * message.length ∨ j = 8 * message.length + 1 ∨
          j = 8 * message.length + 2 := by omega
      · simp [hj]
      · simp [hj]
      · simp [hj]
    · rw [List.getElem?_eq_none (by rw [h.1]; exact hge'), List.getElem?_eq_none (by simp; omega)]

/-- Both constituent encoders ran, on the vector and on what the interleaver left. -/
structure EncodedPair (message xinterleaved : List UInt8) (st1 st2 : EncoderState) : Prop where
  run1 : encoder (messageVector message ++ [0, 0, 0]) ↑(8 * message.length)
    (List.replicate (8 * message.length + 3) 0) = some st1
  run2 : encoder (xinterleaved ++ [0, 0, 0]) ↑(8 * message.length)
    (List.replicate (8 * message.length + 3) 0) = some st2
  first : Encoded (messageVector message) (8 * message.length) st1
  second : Encoded xinterleaved (8 * message.length) st2

theorem exists_encodedPair {message xinterleaved : List UInt8}
    (hxi : xinterleaved.length = 8 * message.length) (hK : 8 * message.length + 3 ≤ 2147483647) :
    ∃ st1 st2, EncodedPair message xinterleaved st1 st2 := by
  obtain ⟨st1, hrun1, h1⟩ := encoder_rounds (x := messageVector message ++ [0, 0, 0])
    (by simp) List.length_replicate hK
  obtain ⟨st2, hrun2, h2⟩ := encoder_rounds (x := xinterleaved ++ [0, 0, 0])
    (by simp [hxi]) List.length_replicate hK
  exact ⟨st1, st2, hrun1, hrun2, encoded_of_rounds (length_messageVector message) h1,
    encoded_of_rounds hxi h2⟩

theorem getoutput_eq {message xinterleaved y : List UInt8} {st1 st2 : EncoderState}
    (h : EncodedPair message xinterleaved st1 st2) (hK : 8 * message.length + 3 ≤ 2147483647)
    {spare : Nat} (hspare : 3 ≤ spare)
    (hy : y.length = 8 * (8 * message.length + 4)) (hzero : ∀ j < y.length, y[j]? = some 0) :
    ∃ y', getoutput spare message xinterleaved y = some y' ∧
      y'.length = 8 * (8 * message.length + 4) ∧ ∀ j < 8 * (8 * message.length + 4), y'[j]? =
        some (outputCell (frameBit st1.x st1.parity st2.x st2.parity (8 * message.length)) j) := by
  obtain ⟨x_byte, hread, hlen, hbytes⟩ := readData_eq hspare message
  obtain ⟨x, hbits, hfilled⟩ := byteToBits_eq
    (x := List.replicate (8 * message.length + 3) 0) hlen hbytes (by simp)
  have hold : (fun j => (List.replicate (8 * message.length + 3) (0 : UInt8)).getD j 0) =
      fun _ => 0 := by
    funext j
    simp only [List.getD_eq_getElem?_getD, List.getElem?_replicate]
    split <;> rfl
  rw [List.length_replicate, hold] at hfilled
  have hvector := vector_of_filled hfilled
  obtain ⟨out, hrun, hlen', hcells⟩ := writeOutput_eq h.first.length_x h.first.length_parity
    h.second.length_x h.second.length_parity hy hzero
  have hbitcast : (message.length : Int) * 8 = ↑(8 * message.length) := by
    push_cast
    ring
  have hsizecast : (↑(8 * message.length) : Int) + 3 = ↑(8 * message.length + 3) := by
    push_cast
    ring
  have hbitin : IntType.InRange .signed ↑(8 * message.length) := ⟨by omega, by omega⟩
  have hsizein : IntType.InRange .signed ↑(8 * message.length + 3) := ⟨by omega, by omega⟩
  refine ⟨out.y, ?_, hlen', hcells⟩
  unfold getoutput
  rw [hbitcast, fit_bind hbitin, hsizecast, fit_bind hsizein, Int.toNat_natCast, Int.toNat_natCast,
    hread, Option.bind_eq_bind, Option.bind_some, hbits, Option.bind_eq_bind, Option.bind_some,
    hvector, h.run1, Option.bind_eq_bind, Option.bind_some, h.run2, Option.bind_some, hrun]
  rfl

/-- The levels of the cells, with the marker in place of one of them. -/
def markedCell (bitAt : Nat → Nat → UInt8) (encodelen i : Nat) : UInt8 :=
  if i = encodelen - 5 then 0x81 else level (outputCell bitAt i)

/-- The same cells in the byte order of the device. -/
def frameCell (bitAt : Nat → Nat → UInt8) (encodelen j : Nat) : UInt8 :=
  markedCell bitAt encodelen (8 * (j / 8) + (7 - j % 8))

theorem encodeFrame_eq {message xinterleaved : List UInt8} {wt_block_sz : UInt32}
    {st1 st2 : EncoderState} (h : EncodedPair message xinterleaved st1 st2)
    (hlen : 64 * message.length + 32 ≤ 2147483647) (hwt : wt_block_sz ≠ 0) {spare : Nat}
    (hspare : 3 ≤ spare) :
    ∃ buf, encodeFrame spare message xinterleaved wt_block_sz = some buf ∧
      buf.length = blockCount (8 * (8 * message.length + 4)) wt_block_sz.toNat *
        wt_block_sz.toNat ∧
      FilledTo buf.length (fun _ => 0)
        (frameCell (frameBit st1.x st1.parity st2.x st2.parity (8 * message.length))
          (8 * (8 * message.length + 4))) (8 * (8 * message.length + 4)) buf := by
  generalize hn : 8 * (8 * message.length + 4) = n
  have hw : 0 < wt_block_sz.toNat := by
    apply Nat.pos_of_ne_zero
    intro hzero
    exact hwt (UInt32.toNat_inj.mp hzero)
  have hblocks := (blockCount_bounds (n := n) hw).1
  have hfits := blockCount_fits (n := n) hw (by omega) (by omega) wt_block_sz.toNat_lt
  obtain ⟨y, hget, hylen, hy⟩ := getoutput_eq (y := List.replicate n 0) h (by omega) hspare
    (by rw [hn, List.length_replicate]) (fun j hj => by
      rw [List.length_replicate] at hj
      simp [hj])
  obtain ⟨mapped, hmap, hmappedlen, hmapped⟩ := mapLevels_eq y (n := n)
    (by rw [hylen, hn])
  have hmark : n - 5 < mapped.length := by omega
  obtain ⟨buf, hswap, hbuf⟩ := swapBytes_eq (mapped.set (n - 5) 0x81)
    (List.replicate (blockCount n wt_block_sz.toNat * wt_block_sz.toNat) 0)
    (8 * message.length + 4) (by rw [List.length_set, hmappedlen, hn])
    (by rw [List.length_replicate, hn]; exact hblocks) (fun j hj => by
      rw [List.length_replicate] at hj
      simp [hj])
  rw [hn] at hswap hbuf hy
  rw [List.length_replicate] at hbuf
  refine ⟨buf, ?_, hbuf.1, ?_⟩
  · have hcode := codeLength_eq hlen
    rw [hn] at hcode
    have hcast : (n : Int) - 5 = ↑(n - 5) := by omega
    unfold encodeFrame
    rw [hcode, Option.bind_eq_bind, Option.bind_some, if_neg hwt, Int.toNat_natCast,
      ← Option.bind_eq_bind, fit_bind hfits, Int.toNat_natCast, hget, Option.bind_eq_bind,
      Option.bind_some, hmap, Option.bind_some, hcast, store_natCast hmark]
    exact hswap
  · rw [hbuf.1]
    refine ⟨hbuf.1, fun j hj => ?_⟩
    rw [hbuf.2 j hj]
    split
    · rename_i hlt
      congr 1
      simp only [frameCell, markedCell, List.getD_eq_getElem?_getD]
      split
      · rename_i heq
        rw [heq, List.getElem?_set_self hmark, Option.getD_some]
      · rename_i hne
        rw [List.getElem?_set_ne (Ne.symm hne), hmapped _ (by omega), Option.getD_some,
          List.getD_eq_getElem?_getD, hy _ (by omega), Option.getD_some]
    · rfl

/-! ## Reading back -/

/-- The byte whose bits, most significant first, are given. -/
def byteOfBits (bitAt : Nat → Bool) : UInt8 :=
  (List.range 8).foldl (fun v b => 2 * v + (if bitAt b then 1 else 0)) 0

/-- The message at the systematic places of a frame. -/
def readBack (buf : List UInt8) (K_byte : Nat) : List UInt8 :=
  (List.range K_byte).map fun k =>
    byteOfBits fun b => buf.getD (8 * (8 * k + b) + 7) 0 == 0x7f

theorem byteOfBits_bitOf (v : UInt8) : byteOfBits (fun b => level (bitOf v b) == 0x7f) = v := by
  have hall : ∀ n < 256, byteOfBits (fun b => level (bitOf (UInt8.ofNat n) b) == 0x7f) =
      UInt8.ofNat n := by decide +kernel
  have hv := hall v.toNat v.toNat_lt
  rwa [UInt8.ofNat_toNat] at hv

theorem byteOfBits_congr {f g : Nat → Bool} (h : ∀ b < 8, f b = g b) :
    byteOfBits f = byteOfBits g := by
  apply List.foldl_ext
  intro v b hb
  rw [h b (List.mem_range.mp hb)]

theorem level_ne_marker (b : UInt8) : level b ≠ 0x81 := by
  unfold level
  split <;> decide

/-- What the device finds in the blocks it is given. -/
structure Framed (message xinterleaved : List UInt8) (wt_block_sz : Nat) (buf : List UInt8)
    (st1 st2 : EncoderState) : Prop where
  encoded : EncodedPair message xinterleaved st1 st2
  blocks : wt_block_sz ∣ buf.length ∧ 8 * (8 * message.length + 4) ≤ buf.length ∧
    buf.length < 8 * (8 * message.length + 4) + wt_block_sz
  systematic : ∀ i < 8 * message.length, buf[8 * i + 7]? = some (level (messageBits message i))
  first_parity : ∀ i < 8 * message.length, buf[8 * i + 6]? = some (level (st1.parity.getD i 0))
  second_parity : ∀ i < 8 * message.length, buf[8 * i + 5]? = some (level (st2.parity.getD i 0))
  tail : ∀ t < 12, buf[8 * (8 * message.length + t / 3) + (7 - t % 3)]? = some (level
    ((tailBits st1.x st1.parity st2.x st2.parity (8 * message.length)).getD t 0))
  marker : ∀ j < buf.length, buf[j]? = some 0x81 ↔ j = 8 * (8 * message.length + 4) - 4
  filler : ∀ j < 8 * (8 * message.length + 4), j % 8 < 5 → j ≠ 8 * (8 * message.length + 4) - 4 →
    buf[j]? = some 0x80
  padding : ∀ j < buf.length, 8 * (8 * message.length + 4) ≤ j → buf[j]? = some 0
  decoded : readBack buf message.length = message

section Layout
variable {message xinterleaved buf : List UInt8} {wt_block_sz : Nat} {st1 st2 : EncoderState}
  {bitAt : Nat → Nat → UInt8} {n : Nat}

theorem frameCell_group {g o : Nat} (hg : g < n) (ho : o < 3) :
    frameCell bitAt (8 * n) (8 * g + (7 - o)) = level (bitAt g o) := by
  have hdiv : (8 * g + (7 - o)) / 8 = g := by omega
  have hmod : 7 - (8 * g + (7 - o)) % 8 = o := by omega
  have hne : 8 * g + o ≠ 8 * n - 5 := by omega
  rw [frameCell, hdiv, hmod, markedCell, if_neg hne, outputCell_group bitAt ho]

theorem frameCell_filler {j : Nat} (hj : j < 8 * n) (hmod : j % 8 < 5) (hne : j ≠ 8 * n - 4) :
    frameCell bitAt (8 * n) j = 0x80 := by
  have hplace : 8 * (j / 8) + (7 - j % 8) ≠ 8 * n - 5 := by omega
  rw [frameCell, markedCell, if_neg hplace, outputCell_filler bitAt (by omega)]
  rfl

theorem frameCell_eq_marker_iff {j : Nat} (hj : j < 8 * n) :
    frameCell bitAt (8 * n) j = 0x81 ↔ j = 8 * n - 4 := by
  unfold frameCell markedCell
  split
  · have heq : j = 8 * n - 4 := by omega
    simp [heq]
  · have hne : j ≠ 8 * n - 4 := by omega
    simp [hne, level_ne_marker]

theorem framed_of_filled (h : EncodedPair message xinterleaved st1 st2)
    (hlen : buf.length = blockCount (8 * (8 * message.length + 4)) wt_block_sz * wt_block_sz)
    (hwt : 0 < wt_block_sz)
    (hfilled : FilledTo buf.length (fun _ => 0)
      (frameCell (frameBit st1.x st1.parity st2.x st2.parity (8 * message.length))
        (8 * (8 * message.length + 4))) (8 * (8 * message.length + 4)) buf) :
    Framed message xinterleaved wt_block_sz buf st1 st2 := by
  obtain ⟨hge, hlt⟩ := blockCount_bounds (n := 8 * (8 * message.length + 4)) hwt
  rw [← hlen] at hge hlt
  have hgroup : ∀ g o, g < 8 * message.length + 4 → o < 3 → buf[8 * g + (7 - o)]? = some
      (level (frameBit st1.x st1.parity st2.x st2.parity (8 * message.length) g o)) := by
    intro g o hg ho
    rw [hfilled.2 _ (by omega), if_pos (by omega), frameCell_group hg ho]
  have hsystematic : ∀ i < 8 * message.length, buf[8 * i + 7]? = some
      (level (messageBits message i)) := by
    intro i hi
    have hcell := hgroup i 0 (by omega) (by omega)
    have hbit : st1.x.getD i 0 = messageBits message i := by
      have hx : st1.x[i]? = (messageVector message)[i]? := by
        rw [← h.first.systematic, List.getElem?_take_of_lt hi]
      rw [List.getD_eq_getElem?_getD, hx]
      simp [messageVector, hi]
    unfold frameBit at hcell
    rw [if_pos hi] at hcell
    rw [← hbit]
    exact hcell
  refine ⟨h, ⟨⟨_, by rw [hlen, Nat.mul_comm]⟩, hge, hlt⟩, hsystematic, ?_, ?_, ?_, ?_, ?_, ?_, ?_⟩
  · intro i hi
    have hcell := hgroup i 1 (by omega) (by omega)
    unfold frameBit at hcell
    rw [if_pos hi] at hcell
    exact hcell
  · intro i hi
    have hcell := hgroup i 2 (by omega) (by omega)
    unfold frameBit at hcell
    rw [if_pos hi] at hcell
    exact hcell
  · intro t ht
    have hcell := hgroup (8 * message.length + t / 3) (t % 3) (by omega) (Nat.mod_lt t (by omega))
    rw [frameBit_tail, Nat.div_add_mod] at hcell
    exact hcell
  · intro j hj
    rw [hfilled.2 j hj, Option.some.injEq]
    split
    · rename_i hin
      exact frameCell_eq_marker_iff hin
    · have hne : j ≠ 8 * (8 * message.length + 4) - 4 := by omega
      simp [hne]
  · intro j hj hmod hne
    rw [hfilled.2 j (by omega), if_pos hj, frameCell_filler hj hmod hne]
  · intro j hj hpad
    rw [hfilled.2 j hj, if_neg (by omega)]
  · apply List.ext_getElem?
    intro k
    rcases Nat.lt_or_ge k message.length with hk | hk
    · have hbyte : byteOfBits (fun b => buf.getD (8 * (8 * k + b) + 7) 0 == 0x7f) =
          message.getD k 0 := by
        rw [← byteOfBits_bitOf (message.getD k 0)]
        apply byteOfBits_congr
        intro b hb
        have hdiv : (8 * k + b) / 8 = k := by omega
        have hmod : (8 * k + b) % 8 = b := by omega
        rw [List.getD_eq_getElem?_getD, hsystematic (8 * k + b) (by omega), Option.getD_some,
          messageBits, hdiv, hmod]
      rw [readBack, List.getElem?_map, List.getElem?_range hk, Option.map_some, hbyte]
      simp [hk]
    · rw [List.getElem?_eq_none hk, List.getElem?_eq_none (by simpa [readBack] using hk)]

end Layout

/-- The frame comes about with every index inside its buffer, and it is the one the device
decodes. -/
def Decodable (spare : Nat) (message xinterleaved : List UInt8) (wt_block_sz : UInt32) : Prop :=
  ∃ buf st1 st2, encodeFrame spare message xinterleaved wt_block_sz = some buf ∧
    Framed message xinterleaved wt_block_sz.toNat buf st1 st2

/-- With three cells behind `x_byte` the frame of every message whose encoded length is an `int`
has the layout the device decodes, for every block size. -/
theorem encodeFrame_layout {message xinterleaved : List UInt8} {wt_block_sz : UInt32}
    {spare : Nat} (hspare : 3 ≤ spare) (hlen : 64 * message.length + 32 ≤ 2147483647)
    (hxi : xinterleaved.length = 8 * message.length) (hwt : wt_block_sz ≠ 0) :
    Decodable spare message xinterleaved wt_block_sz := by
  obtain ⟨st1, st2, hpair⟩ := exists_encodedPair hxi (by omega)
  obtain ⟨buf, hrun, hbuflen, hfilled⟩ := encodeFrame_eq hpair hlen hwt hspare
  have hpos : 0 < wt_block_sz.toNat := by
    apply Nat.pos_of_ne_zero
    intro hzero
    exact hwt (UInt32.toNat_inj.mp hzero)
  exact ⟨buf, st1, st2, hrun, framed_of_filled hpair hbuflen hpos hfilled⟩

theorem encodeFrame_overruns {message : List UInt8} (h : message ≠ []) {spare : Nat}
    (hspare : spare < 3) (xinterleaved : List UInt8) (wt_block_sz : UInt32) :
    encodeFrame spare message xinterleaved wt_block_sz = none := by
  have hget : ∀ y, getoutput spare message xinterleaved y = none := by
    intro y
    simp [getoutput, readData_overruns hspare h]
  unfold encodeFrame
  rw [Option.bind_eq_bind, Option.bind_eq_none_iff]
  intro encodelen _
  split
  · rfl
  · simp [hget]

/-- Three cells behind `x_byte` are all that the frame lacks. -/
theorem decodable_iff {message xinterleaved : List UInt8} {wt_block_sz : UInt32} {spare : Nat}
    (h : message ≠ []) (hlen : 64 * message.length + 32 ≤ 2147483647)
    (hxi : xinterleaved.length = 8 * message.length) (hwt : wt_block_sz ≠ 0) :
    Decodable spare message xinterleaved wt_block_sz ↔ 3 ≤ spare := by
  constructor
  · rintro ⟨buf, st1, st2, hrun, -⟩
    by_contra hspare
    rw [encodeFrame_overruns h (by omega)] at hrun
    cases hrun
  · exact fun hspare => encodeFrame_layout hspare hlen hxi hwt

/-- The buffer the source allocates is too short for every message: the number scanned for its
last byte is stored over the three cells behind it. -/
theorem encodeFrame_never_decodable {message : List UInt8} (h : message ≠ [])
    (xinterleaved : List UInt8) (wt_block_sz : UInt32) :
    ¬ Decodable 0 message xinterleaved wt_block_sz := by
  rintro ⟨buf, st1, st2, hrun, -⟩
  rw [encodeFrame_overruns h (by decide)] at hrun
  cases hrun

theorem encodeFrame_never_decodable_five_bytes :
    ¬ Decodable 0 [0xa5, 0x5a, 0, 0xff, 0x12] (List.replicate 40 1) 4096 :=
  encodeFrame_never_decodable (by decide) _ _

/-- Forty bits in blocks of 4096 bytes: five numbers go into five cells, and with three cells
more the frame would come about. -/
theorem five_bytes_overrun :
    ¬ Decodable 0 [0xa5, 0x5a, 0, 0xff, 0x12] (List.replicate 40 1) 4096 ∧
      readData 0 [0xa5, 0x5a, 0, 0xff, 0x12] = none ∧
      readData 3 [0xa5, 0x5a, 0, 0xff, 0x12] = some [0xa5, 0x5a, 0, 0xff, 0x12, 0, 0, 0] := by
  refine ⟨?_, by decide, by decide⟩
  rintro ⟨buf, st1, st2, hrun, -⟩
  rw [encodeFrame_overruns (by decide) (by decide)] at hrun
  cases hrun

end PdmaXen.Turbo
