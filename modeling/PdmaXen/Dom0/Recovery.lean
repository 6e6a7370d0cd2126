import Mathlib.Algebra.Group.Nat.Defs
import PdmaXen.Dom0.Requests

/-!
# Messages one after the other, with failing device operations

The byte counts and the owner of a session are carried from request to request. The
whole blocks of a message bring the counts back to zero and the end of its answer
releases the device; a block that fails leaves all of them as they are.
-/

namespace PdmaXen.Dom0
set_option autoImplicit false
open Machine

/-- A message of `length` bytes with what the environment answers to each of its requests. -/
structure Errand where
  dom : Dom
  length : UInt32
  writeEnv : Nat → Env
  readEnv : Nat → Env

/-- How many blocks `length` bytes take; a message and an answer have at least one. -/
def blocksOf (cfg : Config) (length : UInt32) : Nat :=
  max 1 ((length.toNat + cfg.wtBlockSz.toNat - 1) / cfg.wtBlockSz.toNat)

namespace Errand
variable (cfg : Config) (m : Errand)

/-- The length of the answer as the first READ reports it. -/
def answer : UInt32 := (m.readEnv 0).reg.getD (m.readEnv 0).stale

def writeReq (i : Nat) : Request :=
  { id := UInt32.ofNat i, operation := .write, status := 0, length := m.length }

/-- What `ctrl.val` holds at the READ `k`. -/
def val (k : Nat) : UInt32 := if k = 0 then m.answer else (m.readEnv k).stale

def readReq (k : Nat) : Request :=
  { id := UInt32.ofNat k, operation := .read, status := 0, length := 0 }

def writes : List (Request × Env) :=
  (List.range (blocksOf cfg m.length)).map fun i => (m.writeReq i, m.writeEnv i)

def reads : List (Request × Env) :=
  (List.range (blocksOf cfg m.answer)).map fun k => (readReq k, m.readEnv k)

end Errand

/-- The front end waits for the answer to each request, so it comes no further than to the
first one whose block fails. -/
def untilFailure : List (Request × Env) → List (Request × Env)
  | [] => []
  | x :: xs => if x.2.ok then x :: untilFailure xs else [x]

namespace Errand
variable (cfg : Config) (m : Errand)

def requests : List (Request × Env) := untilFailure (m.writes cfg ++ m.reads cfg)

def labels : List Label := (m.requests cfg).flatMap fun x => serveRequest m.dom x.1 x.2

/-- Some operation of the device fails. -/
def Fails : Prop := (∃ x ∈ m.requests cfg, x.2.ok = false) ∨ (m.readEnv 0).reg = none

end Errand

def Event.taken : Event → Option (UInt32 × Op)
  | .take _ req => some (req.id, req.operation)
  | _ => none

def Event.responded : Event → Option (UInt32 × Op)
  | .response _ resp => some (resp.id, resp.operation)
  | _ => none

def Event.device : Event → Option DevOp
  | .op _ o => some o
  | _ => none

def DevOp.isWrite : DevOp → Bool
  | .write _ => true
  | _ => false

/-- The session is as it was at the start. -/
structure Released (s : State) : Prop where
  wtingDomuId : s.wtingDomuId = none
  writedSz : s.writedSz = 0
  readedSz : s.readedSz = 0

def opened : State := { chrifFilp := .opened, openCnt := 1 }

/-- `m` was handled as it should be: `es` is what happened, `s` the state after it. -/
structure Handled (cfg : Config) (m : Errand) (es : List Event) (s : State) : Prop where
  first : (es.filterMap Event.device).takeWhile (fun o => !o.isWrite)
    = [.regWrite 1, .regWrite ((m.length / 8) <<< 19)]
  answered : es.filterMap Event.responded = es.filterMap Event.taken
  released : m.Fails cfg → Released s
  fresh : ∃ t, exec (step cfg) opened (m.labels cfg) = some t ∧ t.trace = es

/-- Every message of the sequence is handled as it should be. -/
def Recovers (cfg : Config) (ms : List Errand) : Prop :=
  ∀ before m after, ms = before ++ m :: after → ∀ s t,
    exec (step cfg) opened (before.flatMap (Errand.labels cfg)) = some s →
    exec (step cfg) s (m.labels cfg) = some t →
    ∃ es, t.trace = s.trace ++ es ∧ Handled cfg m es t

/-- No block fails, the byte counts do not overflow, and `ctrl.val`, which only the first
READ sets, tells the last READ of the answer from the others. -/
structure Clean (cfg : Config) (m : Errand) : Prop where
  writes : ∀ i, i < blocksOf cfg m.length → (m.writeEnv i).ok = true
  reads : ∀ k, k < blocksOf cfg m.answer → (m.readEnv k).ok = true
  writeFits : blocksOf cfg m.length * cfg.wtBlockSz.toNat ≤ 2 ^ 32
  readFits : blocksOf cfg m.answer * cfg.wtBlockSz.toNat < 2 ^ 32
  ends : ∀ k, k < blocksOf cfg m.answer →
    ((m.val k).toNat ≤ (k + 1) * cfg.wtBlockSz.toNat ↔ k + 1 = blocksOf cfg m.answer)

/-! ## Byte counts -/

section
variable {cfg : Config} {length : UInt32} {k : Nat}

theorem blocksOf_pos (cfg : Config) (length : UInt32) : 0 < blocksOf cfg length := by
  unfold blocksOf
  omega

theorem blocksOf_of_zero (h : cfg.wtBlockSz.toNat = 0) : blocksOf cfg length = 1 := by
  simp [blocksOf, h]

theorem le_blocksOf_mul (h : 0 < cfg.wtBlockSz.toNat) :
    length.toNat ≤ blocksOf cfg length * cfg.wtBlockSz.toNat := by
  have hdiv := Nat.div_add_mod (length.toNat + cfg.wtBlockSz.toNat - 1) cfg.wtBlockSz.toNat
  have hmod := Nat.mod_lt (length.toNat + cfg.wtBlockSz.toNat - 1) h
  have hmul : (length.toNat + cfg.wtBlockSz.toNat - 1) / cfg.wtBlockSz.toNat * cfg.wtBlockSz.toNat
      ≤ blocksOf cfg length * cfg.wtBlockSz.toNat :=
    Nat.mul_le_mul_right _ (Nat.le_max_right _ _)
  rw [Nat.mul_comm] at hdiv
  omega

theorem mul_lt_of_lt_blocksOf (hpos : 0 < k) (h : k < blocksOf cfg length) :
    k * cfg.wtBlockSz.toNat < length.toNat := by
  have hk : k < (length.toNat + cfg.wtBlockSz.toNat - 1) / cfg.wtBlockSz.toNat := by
    unfold blocksOf at h
    omega
  have hblk : 0 < cfg.wtBlockSz.toNat := by
    rcases Nat.eq_zero_or_pos cfg.wtBlockSz.toNat with h0 | h0
    · rw [h0, Nat.div_zero] at hk
      omega
    · exact h0
  have hmul := (Nat.le_div_iff_mul_le hblk).mp hk
  rw [Nat.succ_mul] at hmul
  omega

def countAfter (cfg : Config) (n k : Nat) : UInt32 :=
  if k < n then UInt32.ofNat k * cfg.wtBlockSz else 0

theorem toNat_count (h : k * cfg.wtBlockSz.toNat < 2 ^ 32) (hblk : 0 < cfg.wtBlockSz.toNat) :
    (UInt32.ofNat k * cfg.wtBlockSz).toNat = k * cfg.wtBlockSz.toNat := by
  have hk : k ≤ k * cfg.wtBlockSz.toNat := Nat.le_mul_of_pos_right k hblk
  rw [UInt32.toNat_mul, UInt32.toNat_ofNat', Nat.mod_eq_of_lt (a := k) (by omega),
    Nat.mod_eq_of_lt h]

theorem countAfter_eq_zero (h : k < blocksOf cfg length) :
    countAfter cfg (blocksOf cfg length) k = 0 ↔ k = 0 := by
  rw [countAfter, if_pos h]
  constructor
  · intro h0
    by_contra hk
    have hlt := mul_lt_of_lt_blocksOf (by omega) h
    have hblk : 0 < cfg.wtBlockSz.toNat := by
      by_contra hz
      rw [blocksOf_of_zero (by omega)] at h
      omega
    have hnat := toNat_count (k := k) (by have := length.toNat_lt; omega) hblk
    rw [h0] at hnat
    have hpos := Nat.mul_pos (by omega : 0 < k) hblk
    simp at hnat
    omega
  · rintro rfl
    simp

theorem toNat_countAfter_add (h : k < blocksOf cfg length)
    (hfits : (k + 1) * cfg.wtBlockSz.toNat < 2 ^ 32) :
    (countAfter cfg (blocksOf cfg length) k + cfg.wtBlockSz).toNat
      = (k + 1) * cfg.wtBlockSz.toNat := by
  rw [countAfter, if_pos h, UInt32.toNat_add]
  rcases Nat.eq_zero_or_pos cfg.wtBlockSz.toNat with h0 | h0
  · rw [UInt32.toNat_mul, h0]
    simp
  · rw [Nat.succ_mul] at hfits
    rw [toNat_count (by omega) h0, ← Nat.succ_mul, Nat.mod_eq_of_lt (by rw [Nat.succ_mul]; omega)]

theorem countAfter_add {n : Nat} (h : k + 1 < n) :
    countAfter cfg n k + cfg.wtBlockSz = countAfter cfg n (k + 1) := by
  rw [countAfter, countAfter, if_pos h, if_pos (Nat.lt_of_succ_lt h), UInt32.ofNat_add,
    UInt32.add_mul]
  exact congrArg _ (UInt32.one_mul _).symm

theorem countAfter_succ (hfits : blocksOf cfg length * cfg.wtBlockSz.toNat ≤ 2 ^ 32)
    (h : k < blocksOf cfg length) :
    (if length ≤ countAfter cfg (blocksOf cfg length) k + cfg.wtBlockSz then 0
      else countAfter cfg (blocksOf cfg length) k + cfg.wtBlockSz)
      = countAfter cfg (blocksOf cfg length) (k + 1) := by
  rcases Nat.lt_or_eq_of_le (show k + 1 ≤ blocksOf cfg length from h) with hlt | heq
  · have hmul := mul_lt_of_lt_blocksOf (k := k + 1) (by omega) hlt
    have hlen := length.toNat_lt
    have hadd := toNat_countAfter_add h (by omega)
    have hnot : ¬ length ≤ countAfter cfg (blocksOf cfg length) k + cfg.wtBlockSz := by
      rw [UInt32.le_iff_toNat_le, hadd]
      omega
    have hblk : 0 < cfg.wtBlockSz.toNat := by
      by_contra hz
      rw [blocksOf_of_zero (by omega)] at hlt
      omega
    rw [if_neg hnot]
    apply UInt32.toNat_inj.mp
    rw [hadd, countAfter, if_pos hlt, toNat_count (by omega) hblk]
  · have hzero : countAfter cfg (blocksOf cfg length) (k + 1) = 0 := by
      rw [countAfter, if_neg (by omega)]
    rw [hzero]
    split
    · rfl
    · next hnot =>
      rw [UInt32.le_iff_toNat_le] at hnot
      apply UInt32.toNat_inj.mp
      rcases Nat.eq_zero_or_pos cfg.wtBlockSz.toNat with h0 | h0
      · rw [toNat_countAfter_add h (by rw [h0]; omega), h0]
        simp
      · have hle : length.toNat ≤ blocksOf cfg length * cfg.wtBlockSz.toNat := le_blocksOf_mul h0
        rw [← heq] at hle hfits
        by_cases hsmall : (k + 1) * cfg.wtBlockSz.toNat < 2 ^ 32
        · rw [toNat_countAfter_add h hsmall] at hnot
          omega
        · have hk : k * cfg.wtBlockSz.toNat < 2 ^ 32 := by
            rw [Nat.succ_mul] at hfits
            omega
          rw [countAfter, if_pos h, UInt32.toNat_add, toNat_count hk h0, ← Nat.succ_mul]
          rw [show (k + 1) * cfg.wtBlockSz.toNat = 2 ^ 32 by omega]
          rfl

end

/-! ## One message -/

def Errand.writeEvents (m : Errand) (i : Nat) : List Event :=
  .take m.dom (m.writeReq i) ::
    (if i = 0 then
      [.op m.dom (.regWrite 1), .op m.dom (.regWrite ((m.length / 8) <<< 19))] else []) ++
    [.op m.dom (.write true), .response m.dom (makeResponse (m.writeReq i) none),
      .unlock m.dom (some m.dom)]

def Errand.readEvents (cfg : Config) (m : Errand) (k : Nat) : List Event :=
  .take m.dom (Errand.readReq k) :: (if k = 0 then [.op m.dom .regRead] else []) ++
    [.op m.dom (.read (m.val k) true),
      .response m.dom (makeResponse (Errand.readReq k) (some (m.val k)))] ++
    if k + 1 = blocksOf cfg m.answer then [.op m.dom (.regWrite 1)] else []

def Errand.events (cfg : Config) (m : Errand) : List Event :=
  (List.range (blocksOf cfg m.length)).flatMap m.writeEvents ++
    (List.range (blocksOf cfg m.answer)).flatMap (m.readEvents cfg)

def State.afterWrites (cfg : Config) (m : Errand) (s : State) (k : Nat) : State :=
  { s with
    wtingDomuId := if k = 0 then none else some m.dom
    writedSz := countAfter cfg (blocksOf cfg m.length) k
    trace := s.trace ++ (List.range k).flatMap m.writeEvents }

def State.afterReads (cfg : Config) (m : Errand) (s : State) (k : Nat) : State :=
  { s with
    wtingDomuId := if k < blocksOf cfg m.answer then some m.dom else none
    readedSz := countAfter cfg (blocksOf cfg m.answer) k
    trace := s.trace ++ (List.range k).flatMap (m.readEvents cfg) }

section
variable {cfg : Config} {m : Errand} {s : State}

theorem Ready.afterWrites (h : Ready s m.dom) (k : Nat) : Ready (s.afterWrites cfg m k) m.dom :=
  ⟨h.pc, h.lock, h.filp⟩

theorem Ready.afterReads (h : Ready s m.dom) (k : Nat) : Ready (s.afterReads cfg m k) m.dom :=
  ⟨h.pc, h.lock, h.filp⟩

theorem untilFailure_of_ok {xs : List (Request × Env)} (h : ∀ x ∈ xs, x.2.ok = true) :
    untilFailure xs = xs := by
  induction xs with
  | nil => rfl
  | cons x xs ih =>
    rw [untilFailure, if_pos (h x List.mem_cons_self),
      ih fun y hy => h y (List.mem_cons_of_mem x hy)]

theorem Clean.requests_eq (h : Clean cfg m) : m.requests cfg = m.writes cfg ++ m.reads cfg := by
  apply untilFailure_of_ok
  intro x hx
  rcases List.mem_append.mp hx with hx | hx
  · obtain ⟨i, hi, rfl⟩ := List.mem_map.mp hx
    exact h.writes i (List.mem_range.mp hi)
  · obtain ⟨k, hk, rfl⟩ := List.mem_map.mp hx
    exact h.reads k (List.mem_range.mp hk)

theorem serveWrite_afterWrites (h : Clean cfg m) {k : Nat} (hk : k < blocksOf cfg m.length) :
    (s.afterWrites cfg m k).serveWrite cfg m.dom (m.writeReq k) = s.afterWrites cfg m (k + 1) := by
  have hnext := countAfter_succ h.writeFits hk
  have hzero := countAfter_eq_zero hk
  simp only [State.afterWrites, State.serveWrite, State.nextWritedSz, State.lengthEvents,
    Errand.writeReq, Errand.writeEvents, hzero, List.range_succ, List.flatMap_append,
    List.flatMap_singleton]
  simp
  exact hnext

theorem exec_writes (h : Clean cfg m) (hs : Ready s m.dom) (hrel : Released s) {k : Nat}
    (hk : k ≤ blocksOf cfg m.length) :
    exec (step cfg) s ((List.range k).flatMap fun i =>
      serveRequest m.dom (m.writeReq i) (m.writeEnv i)) = some (s.afterWrites cfg m k) := by
  induction k with
  | zero =>
    have hcount : countAfter cfg (blocksOf cfg m.length) 0 = s.writedSz := by
      rw [(countAfter_eq_zero (blocksOf_pos cfg m.length)).mpr rfl, hrel.writedSz]
    simp [State.afterWrites, hcount, ← hrel.wtingDomuId]
  | succ k ih =>
    have hlt : k < blocksOf cfg m.length := hk
    have hown : (s.afterWrites cfg m k).wtingDomuId = none ∨
        (s.afterWrites cfg m k).wtingDomuId = some m.dom := by
      simp only [State.afterWrites]
      split
      · exact .inl rfl
      · exact .inr rfl
    rw [List.range_succ, List.flatMap_append, exec_append, ih (Nat.le_of_lt hlt), Option.bind_some,
      List.flatMap_singleton, exec_write (hs.afterWrites k) rfl hown (h.writes k hlt),
      serveWrite_afterWrites h hlt]

theorem readVal_countAfter {k : Nat} (hk : k < blocksOf cfg m.answer)
    (hcount : s.readedSz = countAfter cfg (blocksOf cfg m.answer) k) :
    s.readVal (m.readEnv k) = m.val k := by
  rw [State.readVal, hcount, Errand.val]
  simp only [countAfter_eq_zero hk]
  split
  · next h0 => rw [h0]; rfl
  · rfl

theorem Clean.ends_iff (h : Clean cfg m) {k : Nat} (hk : k < blocksOf cfg m.answer) :
    m.val k ≤ countAfter cfg (blocksOf cfg m.answer) k + cfg.wtBlockSz ↔
      k + 1 = blocksOf cfg m.answer := by
  have hle : (k + 1) * cfg.wtBlockSz.toNat ≤ blocksOf cfg m.answer * cfg.wtBlockSz.toNat :=
    Nat.mul_le_mul_right _ hk
  have hfits := h.readFits
  rw [UInt32.le_iff_toNat_le, toNat_countAfter_add hk (by omega)]
  exact h.ends k hk

theorem serveRead_afterReads (h : Clean cfg m) {k : Nat} (hk : k < blocksOf cfg m.answer) :
    (s.afterReads cfg m k).serveRead cfg m.dom (Errand.readReq k) (m.readEnv k)
      = s.afterReads cfg m (k + 1) := by
  have hval : (s.afterReads cfg m k).readVal (m.readEnv k) = m.val k := readVal_countAfter hk rfl
  have hread : (s.afterReads cfg m k).readedSz = countAfter cfg (blocksOf cfg m.answer) k := rfl
  have hzero := countAfter_eq_zero hk
  simp only [State.serveRead, hval, hread, h.ends_iff hk, hzero]
  simp only [State.afterReads, Errand.readEvents, List.range_succ, List.flatMap_append,
    List.flatMap_singleton, if_pos hk]
  by_cases hlast : k + 1 = blocksOf cfg m.answer
  · have hnot : ¬ k + 1 < blocksOf cfg m.answer := by omega
    simp [hlast, countAfter]
  · have hlt : k + 1 < blocksOf cfg m.answer := by omega
    simp [hlast, hlt, countAfter_add hlt]

theorem exec_reads (h : Clean cfg m) (hs : Ready s m.dom) (hwq : s.writePdmaWq = [])
    (hread : s.readedSz = 0) (hown : s.wtingDomuId = some m.dom) {k : Nat}
    (hk : k ≤ blocksOf cfg m.answer) :
    exec (step cfg) s ((List.range k).flatMap fun i =>
      serveRequest m.dom (Errand.readReq i) (m.readEnv i)) = some (s.afterReads cfg m k) := by
  induction k with
  | zero =>
    have hcount : countAfter cfg (blocksOf cfg m.answer) 0 = s.readedSz := by
      rw [(countAfter_eq_zero (blocksOf_pos cfg m.answer)).mpr rfl, hread]
    simp [State.afterReads, hcount, blocksOf_pos, ← hown]
  | succ k ih =>
    have hlt : k < blocksOf cfg m.answer := hk
    rw [List.range_succ, List.flatMap_append, exec_append, ih (Nat.le_of_lt hlt), Option.bind_some,
      List.flatMap_singleton, exec_read (hs.afterReads k) rfl hwq (h.reads k hlt),
      serveRead_afterReads h hlt]

/-- A clean message from a released session leaves nothing but its events. -/
theorem exec_errand (h : Clean cfg m) (hs : Ready s m.dom) (hwq : s.writePdmaWq = [])
    (hrel : Released s) :
    exec (step cfg) s (m.labels cfg) = some (s.logs (m.events cfg)) := by
  have hwrites := exec_writes h hs hrel (Nat.le_refl _)
  have hown : (s.afterWrites cfg m (blocksOf cfg m.length)).wtingDomuId = some m.dom :=
    if_neg (Nat.ne_of_gt (blocksOf_pos cfg m.length))
  have hreads := exec_reads h (hs.afterWrites _) hwq hrel.readedSz hown (Nat.le_refl _)
  rw [Errand.labels, h.requests_eq, List.flatMap_append, Errand.writes, Errand.reads,
    List.flatMap_map, List.flatMap_map, exec_append, hwrites, Option.bind_some, hreads]
  simp [State.afterReads, State.afterWrites, State.logs, Errand.events, countAfter,
    hrel.wtingDomuId, hrel.writedSz, hrel.readedSz]

theorem released_opened (es : List Event) : Released (opened.logs es) := ⟨rfl, rfl, rfl⟩

theorem ready_opened (es : List Event) (d : Dom) : Ready (opened.logs es) d := ⟨rfl, rfl, rfl⟩

theorem exec_errand_opened (h : Clean cfg m) (es : List Event) :
    exec (step cfg) (opened.logs es) (m.labels cfg) = some (opened.logs (es ++ m.events cfg)) := by
  rw [exec_errand h (ready_opened es m.dom) rfl (released_opened es)]
  simp [State.logs]

theorem exec_errands {ms : List Errand} (h : ∀ m ∈ ms, Clean cfg m) (es : List Event) :
    exec (step cfg) (opened.logs es) (ms.flatMap (Errand.labels cfg))
      = some (opened.logs (es ++ ms.flatMap (Errand.events cfg))) := by
  induction ms generalizing es with
  | nil => simp
  | cons m ms ih =>
    rw [List.flatMap_cons, exec_append, exec_errand_opened (h m List.mem_cons_self),
      Option.bind_some, ih fun m' hm' => h m' (List.mem_cons_of_mem m hm')]
    simp

/-! ## What the events of a message say -/

theorem first_events (cfg : Config) (m : Errand) :
    ((m.events cfg).filterMap Event.device).takeWhile (fun o => !o.isWrite)
      = [.regWrite 1, .regWrite ((m.length / 8) <<< 19)] := by
  obtain ⟨n, hn⟩ : ∃ n, blocksOf cfg m.length = n + 1 :=
    ⟨blocksOf cfg m.length - 1, by have := blocksOf_pos cfg m.length; omega⟩
  rw [Errand.events, hn, List.range_succ_eq_map, List.flatMap_cons]
  simp [Errand.writeEvents, Event.device, DevOp.isWrite, List.filterMap_cons]

theorem answered_writeEvents (m : Errand) (i : Nat) :
    (m.writeEvents i).filterMap Event.responded = (m.writeEvents i).filterMap Event.taken := by
  unfold Errand.writeEvents
  split <;> simp [Event.responded, Event.taken, makeResponse, List.filterMap_cons]

theorem answered_readEvents (cfg : Config) (m : Errand) (k : Nat) :
    (m.readEvents cfg k).filterMap Event.responded
      = (m.readEvents cfg k).filterMap Event.taken := by
  unfold Errand.readEvents
  split <;> split <;> simp [Event.responded, Event.taken, makeResponse, List.filterMap_cons]

theorem answered_events (cfg : Config) (m : Errand) :
    (m.events cfg).filterMap Event.responded = (m.events cfg).filterMap Event.taken := by
  simp only [Errand.events, List.filterMap_append, List.filterMap_flatMap, answered_writeEvents,
    answered_readEvents]

theorem Clean.handled (h : Clean cfg m) (es : List Event) :
    Handled cfg m (m.events cfg) (opened.logs es) where
  first := first_events cfg m
  answered := answered_events cfg m
  released := fun _ => released_opened es
  fresh := ⟨_, exec_errand_opened h [], rfl⟩

end

/-- Failure recovery of sessions, for every sequence of clean messages. -/
theorem session_recovery (cfg : Config) (ms : List Errand) (h : ∀ m ∈ ms, Clean cfg m) :
    Recovers cfg ms := by
  rintro before m after rfl s t hs ht
  have hm : Clean cfg m := h m (by simp)
  have hbefore := exec_errands (fun m' hm' => h m' (List.mem_append_left _ hm')) []
  obtain rfl := Option.some.inj (hs.symm.trans hbefore)
  obtain rfl := Option.some.inj (ht.symm.trans (exec_errand_opened hm _))
  exact ⟨m.events cfg, rfl, hm.handled _⟩

/-- Two blocks each way; the length register cannot be read. -/
def twoBlocks (d : Dom) : Errand :=
  { dom := d, length := 8192, writeEnv := fun _ => {}, readEnv := fun _ => { stale := 8192 } }

theorem session_recovery_two : Recovers ⟨4096⟩ [twoBlocks 1, twoBlocks 2] := by
  apply session_recovery
  intro m hm
  rcases List.mem_pair.mp hm with rfl | rfl
  all_goals exact {
    writes := fun _ _ => rfl
    reads := fun _ _ => rfl
    writeFits := by decide
    readFits := by decide
    ends := by decide }

def secondBlockFails : Errand :=
  { dom := 1, length := 8192, writeEnv := fun i => { ok := i == 0 }, readEnv := fun _ => {} }

theorem failed_block_unanswered : ¬Recovers ⟨4096⟩ [secondBlockFails] := by
  intro hrec
  have hrun : (exec (step ⟨4096⟩) opened (secondBlockFails.labels ⟨4096⟩)).map
      (fun t => (t.trace.filterMap Event.responded, t.trace.filterMap Event.taken))
      = some ([(0, .write)], [(0, .write), (1, .write)]) := by decide +kernel
  obtain ⟨t, ht, hviews⟩ := Option.map_eq_some_iff.mp hrun
  obtain ⟨hresponded, htaken⟩ := Prod.mk.inj hviews
  obtain ⟨es, hes, hhandled⟩ := hrec [] secondBlockFails [] rfl opened t rfl ht
  have htrace : t.trace = es := hes
  have hall := hhandled.answered
  rw [← htrace, hresponded, htaken] at hall
  exact absurd hall (by decide)

end PdmaXen.Dom0
