import Mathlib.Data.List.Basic
import Mathlib.Algebra.Order.Ring.Int

/-!
# Machine integers, buffers and counted loops

The integer types of a program in C, its buffers and its counting loops. Signed
overflow and an access outside a buffer have no defined result (`none`); unsigned
arithmetic wraps around.
-/

namespace PdmaXen.CInt
set_option autoImplicit false

/-- The two integer types of 32 bits. -/
inductive IntType where
  | signed
  | unsigned
  deriving DecidableEq, Repr

def IntType.InRange : IntType → Int → Prop
  | .signed, z => -2147483648 ≤ z ∧ z ≤ 2147483647
  | .unsigned, z => 0 ≤ z ∧ z ≤ 4294967295

instance (t : IntType) (z : Int) : Decidable (t.InRange z) := by
  cases t <;> unfold IntType.InRange <;> infer_instance

/-- What an operation with the exact result `z` gives in the type. -/
def IntType.fit : IntType → Int → Option Int
  | .signed, z => if IntType.InRange .signed z then some z else none
  | .unsigned, z => some (z % 4294967296)

theorem fit_eq_some {t : IntType} {z : Int} (h : t.InRange z) : t.fit z = some z := by
  cases t with
  | signed => exact if_pos h
  | unsigned =>
    have hlow := h.1
    have hhigh := h.2
    have hmod : z % 4294967296 = z := by omega
    simp only [IntType.fit, hmod]

theorem fit_bind {β : Type} {t : IntType} {z : Int} (h : t.InRange z) (f : Int → Option β) :
    (t.fit z >>= f) = f z := by
  rw [fit_eq_some h]
  rfl

theorem fit_signed_eq_none {z : Int} (h : ¬ IntType.InRange .signed z) :
    IntType.fit .signed z = none := if_neg h

theorem inRange_mono {t : IntType} {y z : Int} (hy : 0 ≤ y) (hyz : y ≤ z) (hz : t.InRange z) :
    t.InRange y := by
  cases t with
  | signed =>
    have := hz.2
    exact ⟨by omega, by omega⟩
  | unsigned => exact ⟨hy, le_trans hyz hz.2⟩

/-! ## Buffers -/

section Buffers
variable {α : Type}

def load (m : List α) (i : Int) : Option α :=
  if 0 ≤ i then m[i.toNat]? else none

def store (m : List α) (i : Int) (v : α) : Option (List α) :=
  if 0 ≤ i ∧ i.toNat < m.length then some (m.set i.toNat v) else none

theorem load_natCast (m : List α) (i : Nat) : load m i = m[i]? := by
  simp [load]

theorem load_of_lt {m : List α} {i : Nat} (h : i < m.length) (d : α) :
    load m i = some (m.getD i d) := by
  simp [load_natCast, h]

theorem store_natCast {m : List α} {i : Nat} (h : i < m.length) (v : α) :
    store m i v = some (m.set i v) := by
  simp [store, h]

theorem store_eq_some {m m' : List α} {i : Int} {v : α} (h : store m i v = some m') :
    0 ≤ i ∧ i.toNat < m.length ∧ m'.length = m.length := by
  unfold store at h
  split at h
  case isTrue hi =>
    cases h
    exact ⟨hi.1, hi.2, List.length_set⟩
  case isFalse => cases h

/-- The first `n` cells hold what `f` says, the others what they held before. -/
def FilledTo (L : Nat) (old f : Nat → α) (n : Nat) (m : List α) : Prop :=
  m.length = L ∧ ∀ j < L, m[j]? = some (if j < n then f j else old j)

section Filled
variable {L n : Nat} {old f : Nat → α} {m : List α}

theorem FilledTo.start (hlen : m.length = L) (hold : ∀ j < L, m[j]? = some (old j)) :
    FilledTo L old f 0 m :=
  ⟨hlen, fun j hj => by rw [if_neg (Nat.not_lt_zero j)]; exact hold j hj⟩

theorem FilledTo.store (h : FilledTo L old f n m) (hn : n < L) {v : α} (hv : v = f n) :
    ∃ m', store m n v = some m' ∧ FilledTo L old f (n + 1) m' := by
  have hlt : n < m.length := by rw [h.1]; exact hn
  refine ⟨m.set n v, store_natCast hlt v, by rw [List.length_set, h.1], ?_⟩
  intro j hj
  rcases Nat.lt_trichotomy j n with hjn | hjn | hjn
  · rw [List.getElem?_set_ne (by omega), h.2 j hj, if_pos hjn, if_pos (by omega)]
  · subst hjn
    rw [List.getElem?_set_self hlt, if_pos (by omega), hv]
  · rw [List.getElem?_set_ne (by omega), h.2 j hj, if_neg (by omega), if_neg (by omega)]

theorem FilledTo.skip (h : FilledTo L old f n m) {n' : Nat} (hn : n ≤ n')
    (hsame : ∀ j, n ≤ j → j < n' → old j = f j) : FilledTo L old f n' m := by
  refine ⟨h.1, fun j hj => ?_⟩
  rw [h.2 j hj]
  rcases Nat.lt_or_ge j n with hjn | hjn
  · rw [if_pos hjn, if_pos (by omega)]
  · rw [if_neg (by omega)]
    split
    · rename_i hlt
      rw [hsame j hjn hlt]
    · rfl

theorem FilledTo.store_same (h : FilledTo L old f n m) {i : Nat} (hni : n ≤ i) (hi : i < L) :
    CInt.store m i (old i) = some m := by
  have hlt : i < m.length := by rw [h.1]; exact hi
  have hcell := h.2 i hi
  rw [if_neg (by omega), List.getElem?_eq_getElem hlt, Option.some.injEq] at hcell
  rw [store_natCast hlt, ← hcell, List.set_getElem_self]

theorem FilledTo.finish (h : FilledTo L old f n m) (hn : L ≤ n) :
    m.length = L ∧ ∀ j < L, m[j]? = some (f j) := by
  refine ⟨h.1, fun j hj => ?_⟩
  rw [h.2 j hj, if_pos (by omega)]

end Filled

end Buffers

/-! ## Counting loops -/

section Loops
variable {σ : Type}

/-- `for (i = 0; i < n; i++)` with a body that may have no defined result. -/
def forLoop (n : Nat) (body : σ → Nat → Option σ) (init : σ) : Option σ :=
  (List.range n).foldlM body init

theorem forLoop_succ (n : Nat) (body : σ → Nat → Option σ) (init : σ) :
    forLoop (n + 1) body init = (forLoop n body init).bind fun s => body s n := by
  unfold forLoop
  rw [List.range_succ, List.foldlM_append]
  simp only [List.foldlM_cons, List.foldlM_nil, bind_pure]
  rfl

/-- The loop rule: what the body carries from one round to the next, the loop carries from its
start to its end, and the loop does end. -/
theorem forLoop_induction {body : σ → Nat → Option σ} {init : σ} (Inv : Nat → σ → Prop) (n : Nat)
    (hinit : Inv 0 init)
    (hstep : ∀ i s, i < n → Inv i s → ∃ s', body s i = some s' ∧ Inv (i + 1) s') :
    ∃ s, forLoop n body init = some s ∧ Inv n s := by
  induction n with
  | zero => exact ⟨init, rfl, hinit⟩
  | succ n ih =>
    obtain ⟨s, hs, hinv⟩ := ih fun i s hi => hstep i s (by omega)
    obtain ⟨s', hs', hinv'⟩ := hstep n s (by omega) hinv
    apply Exists.intro s'
    rw [forLoop_succ, hs]
    exact ⟨hs', hinv'⟩

theorem forLoop_keeps {body : σ → Nat → Option σ} {init s : σ} {n : Nat} (Inv : σ → Prop)
    (hinit : Inv init) (hstep : ∀ i s s', Inv s → body s i = some s' → Inv s')
    (h : forLoop n body init = some s) : Inv s := by
  induction n generalizing s with
  | zero =>
    cases h
    exact hinit
  | succ n ih =>
    rw [forLoop_succ, Option.bind_eq_some_iff] at h
    obtain ⟨s', hrun, hlast⟩ := h
    exact hstep n s' s (ih hrun) hlast

theorem forLoop_eq_none {body : σ → Nat → Option σ} {init : σ} {n : Nat} (Inv : σ → Prop)
    (hinit : Inv init) (hstep : ∀ i s s', Inv s → body s i = some s' → Inv s')
    (hlast : ∀ s, Inv s → body s n = none) : forLoop (n + 1) body init = none := by
  rw [forLoop_succ, Option.bind_eq_none_iff]
  exact fun s hrun => hlast s (forLoop_keeps Inv hinit hstep hrun)

end Loops

end PdmaXen.CInt
