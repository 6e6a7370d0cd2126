import Mathlib.Data.Finset.Basic
import Mathlib.Order.Interval.Finset.Nat
import PdmaXen.Machine

/-!
# Resource ledgers

A program acquires, uses and releases resources and returns a value. The ledger
is the set of resources held; it refuses to acquire what is held and to use or
release what is not. `wp` is the weakest precondition of a program over ledgers.
-/

namespace PdmaXen.Ledger
set_option autoImplicit false

universe u v
variable {ρ : Type u} {α β : Type v}

inductive Event (ρ : Type u) where
  | acquire (r : ρ)
  | release (r : ρ)
  | use (r : ρ)
deriving DecidableEq

/-- A program is the events it causes and the value it returns. -/
structure Logged (ρ : Type u) (α : Type v) where
  events : List (Event ρ)
  result : α

instance : Monad (Logged.{u, v} ρ) where
  pure a := ⟨[], a⟩
  bind m f := ⟨m.events ++ (f m.result).events, (f m.result).result⟩

@[simp] theorem result_pure (a : α) : (pure a : Logged.{u, v} ρ α).result = a := rfl

@[simp] theorem result_bind (m : Logged.{u, v} ρ α) (f : α → Logged ρ β) :
    (m >>= f).result = (f m.result).result := rfl

def acquire (r : ρ) : Logged ρ Unit := ⟨[.acquire r], ()⟩
def release (r : ρ) : Logged ρ Unit := ⟨[.release r], ()⟩
def use (r : ρ) : Logged ρ Unit := ⟨[.use r], ()⟩

def releaseAll : List ρ → Logged ρ Unit
  | [] => pure ()
  | r :: rs => do
    release r
    releaseAll rs

/-- Acquire `mk i`, `mk (i + 1)`, ... until `left` of them are held or one is
refused; the index it stops at. -/
def acquireUpTo (mk : Nat → ρ) (ok : Nat → Bool) (i : Nat) : Nat → Logged ρ Nat
  | 0 => pure i
  | left + 1 =>
    if ok i then do
      acquire (mk i)
      acquireUpTo mk ok (i + 1) left
    else pure i

theorem acquireUpTo_le (mk : Nat → ρ) (ok : Nat → Bool) (i left : Nat) :
    i ≤ (acquireUpTo mk ok i left).result ∧ (acquireUpTo mk ok i left).result ≤ i + left := by
  induction left generalizing i with
  | zero => exact ⟨le_refl i, le_refl i⟩
  | succ left ih =>
    unfold acquireUpTo
    split
    · have hnext := ih (i + 1)
      rw [result_bind]
      omega
    · exact ⟨le_refl i, by simp⟩

theorem acquireUpTo_eq_iff (mk : Nat → ρ) (ok : Nat → Bool) (i left : Nat) :
    (acquireUpTo mk ok i left).result = i + left ↔ ∀ j, i ≤ j → j < i + left → ok j := by
  induction left generalizing i with
  | zero =>
    constructor
    · intro _ j hj hlt
      omega
    · intro _
      rfl
  | succ left ih =>
    unfold acquireUpTo
    split
    case isTrue hok =>
      rw [result_bind, show i + (left + 1) = i + 1 + left by omega, ih]
      constructor
      · intro h j hj hlt
        rcases Nat.eq_or_lt_of_le hj with rfl | hj
        · exact hok
        · exact h j hj hlt
      · intro h j hj hlt
        exact h j (by omega) hlt
    case isFalse hok =>
      constructor
      · intro h
        rw [result_pure] at h
        omega
      · intro h
        exact absurd (h i (le_refl i) (by omega)) hok

theorem acquireUpTo_stop (mk : Nat → ρ) (ok : Nat → Bool) (i left : Nat)
    (h : (acquireUpTo mk ok i left).result < i + left) :
    ok (acquireUpTo mk ok i left).result = false := by
  induction left generalizing i with
  | zero => exact absurd h (lt_irrefl i)
  | succ left ih =>
    unfold acquireUpTo at h ⊢
    split at h
    · rw [if_pos ‹_›, result_bind]
      rw [result_bind] at h
      exact ih (i + 1) (by omega)
    · rw [if_neg ‹_›, result_pure]
      simpa using ‹¬ok i = true›

variable [DecidableEq ρ]

def Event.apply (held : Finset ρ) : Event ρ → Option (Finset ρ)
  | .acquire r => if r ∈ held then none else some (insert r held)
  | .release r => if r ∈ held then some (held.erase r) else none
  | .use r => if r ∈ held then some held else none

/-- The ledger after the events, `none` once one of them is refused. -/
def replay (held : Finset ρ) (es : List (Event ρ)) : Option (Finset ρ) :=
  Machine.exec Event.apply held es

/-- Every resource is acquired and released in strict alternation and used only
while it is held, and in the end nothing is held. -/
def Settled (es : List (Event ρ)) : Prop := replay ∅ es = some ∅

instance (es : List (Event ρ)) : Decidable (Settled es) :=
  inferInstanceAs (Decidable (replay ∅ es = some ∅))

/-- The events of the program are accepted and lead to a result and a ledger in `Q`. -/
def wp (held : Finset ρ) (m : Logged ρ α) (Q : α → Finset ρ → Prop) : Prop :=
  ∃ kept, replay held m.events = some kept ∧ Q m.result kept

section Rules
variable {held : Finset ρ} {r : ρ}

@[simp] theorem wp_pure {a : α} {Q : α → Finset ρ → Prop} :
    wp held (pure a : Logged ρ α) Q ↔ Q a held := by
  constructor
  · rintro ⟨kept, hrun, hQ⟩
    cases hrun
    exact hQ
  · intro hQ
    exact ⟨held, rfl, hQ⟩

@[simp] theorem wp_bind {m : Logged ρ α} {f : α → Logged ρ β} {Q : β → Finset ρ → Prop} :
    wp held (m >>= f) Q ↔ wp held m fun a kept => wp kept (f a) Q := by
  have hevents : (m >>= f).events = m.events ++ (f m.result).events := rfl
  have hrun : replay held (m >>= f).events
      = (replay held m.events).bind fun kept => replay kept (f m.result).events := by
    rw [hevents, replay, Machine.exec_append]
    rfl
  constructor
  · rintro ⟨kept, hkept, hQ⟩
    rw [hrun, Option.bind_eq_some_iff] at hkept
    obtain ⟨mid, hmid, hrest⟩ := hkept
    exact ⟨mid, hmid, kept, hrest, hQ⟩
  · rintro ⟨mid, hmid, kept, hrest, hQ⟩
    exact ⟨kept, by rw [hrun, hmid]; exact hrest, hQ⟩

theorem wp_event {e : Event ρ} {a : α} {Q : α → Finset ρ → Prop} :
    wp held ⟨[e], a⟩ Q ↔ ∃ kept, e.apply held = some kept ∧ Q a kept := by
  have hrun : replay held [e] = e.apply held := by
    rw [replay, Machine.exec_cons]
    cases e.apply held <;> rfl
  simp only [wp, hrun]

@[simp] theorem wp_acquire {Q : Unit → Finset ρ → Prop} :
    wp held (acquire r) Q ↔ r ∉ held ∧ Q () (insert r held) := by
  rw [acquire, wp_event]
  by_cases hr : r ∈ held <;> simp [Event.apply, hr]

@[simp] theorem wp_release {Q : Unit → Finset ρ → Prop} :
    wp held (release r) Q ↔ r ∈ held ∧ Q () (held.erase r) := by
  rw [release, wp_event]
  by_cases hr : r ∈ held <;> simp [Event.apply, hr]

@[simp] theorem wp_use {Q : Unit → Finset ρ → Prop} :
    wp held (use r) Q ↔ r ∈ held ∧ Q () held := by
  rw [use, wp_event]
  by_cases hr : r ∈ held <;> simp [Event.apply, hr]

theorem wp_mono {m : Logged ρ α} {Q R : α → Finset ρ → Prop} (h : wp held m Q)
    (hQR : ∀ a kept, Q a kept → R a kept) : wp held m R := by
  obtain ⟨kept, hrun, hQ⟩ := h
  exact ⟨kept, hrun, hQR _ _ hQ⟩

/-- The events of the program lead from one ledger to the other. -/
def Lands (held : Finset ρ) (m : Logged ρ α) (kept : Finset ρ) : Prop :=
  wp held m fun _ k => k = kept

theorem Lands.wp_iff {m : Logged ρ α} {kept : Finset ρ} {Q : α → Finset ρ → Prop}
    (h : Lands held m kept) : wp held m Q ↔ Q m.result kept := by
  obtain ⟨k, hrun, rfl⟩ := h
  constructor
  · rintro ⟨k', hrun', hQ⟩
    rw [hrun] at hrun'
    cases hrun'
    exact hQ
  · intro hQ
    exact ⟨k, hrun, hQ⟩

theorem wp_spec {m : Logged ρ α} {P : α → Prop} {kept : α → Finset ρ}
    (h : wp held m fun a k => P a ∧ k = kept a) :
    P m.result ∧ ∀ {Q : α → Finset ρ → Prop}, wp held m Q ↔ Q m.result (kept m.result) := by
  obtain ⟨k, hrun, hP, hk⟩ := h
  exact ⟨hP, Lands.wp_iff ⟨k, hrun, hk⟩⟩

theorem settled_iff {m : Logged ρ α} : Settled m.events ↔ Lands ∅ m ∅ := by
  constructor
  · intro h
    exact ⟨∅, h, rfl⟩
  · rintro ⟨kept, hrun, rfl⟩
    exact hrun

end Rules

section Loops
variable {held : Finset ρ}

theorem lands_releaseAll {rs : List ρ} (hnd : rs.Nodup) (hheld : ∀ r ∈ rs, r ∈ held) :
    Lands held (releaseAll rs) (held \ rs.toFinset) := by
  induction rs generalizing held with
  | nil => simp [releaseAll, Lands]
  | cons r rs ih =>
    obtain ⟨hr, hnd⟩ := List.nodup_cons.mp hnd
    have hrest : ∀ x ∈ rs, x ∈ held.erase r := by
      intro x hx
      refine Finset.mem_erase.mpr ⟨?_, hheld x (List.mem_cons_of_mem r hx)⟩
      rintro rfl
      exact hr hx
    have hset : held.erase r \ rs.toFinset = held \ (r :: rs).toFinset := by
      rw [List.toFinset_cons, Finset.sdiff_insert, Finset.erase_sdiff_comm]
    unfold Lands
    rw [releaseAll, wp_bind, wp_release, ← hset]
    exact ⟨hheld r List.mem_cons_self, ih hnd hrest⟩

/-- The resources with index in `[i, k)`. -/
def block (mk : Nat → ρ) (i k : Nat) : Finset ρ := (Finset.Ico i k).image mk

@[simp] theorem mem_block {mk : Nat → ρ} {i k : Nat} {r : ρ} :
    r ∈ block mk i k ↔ ∃ j, (i ≤ j ∧ j < k) ∧ mk j = r := by
  simp [block]

theorem block_cons (mk : Nat → ρ) {i k : Nat} (h : i < k) :
    insert (mk i) (block mk (i + 1) k) = block mk i k := by
  have hIco : Finset.Ico i k = insert i (Finset.Ico (i + 1) k) := by
    ext j
    simp only [Finset.mem_insert, Finset.mem_Ico]
    omega
  rw [block, block, hIco, Finset.image_insert]

theorem disjoint_block {mk : Nat → ρ} {i k : Nat} (h : ∀ j, mk j ∉ held) :
    Disjoint held (block mk i k) := by
  rw [Finset.disjoint_right]
  intro r hr
  obtain ⟨j, _, rfl⟩ := Finset.mem_image.mp hr
  exact h j

theorem lands_acquireUpTo {mk : Nat → ρ} (hmk : Function.Injective mk) (ok : Nat → Bool)
    (i left : Nat) (hfree : ∀ j, i ≤ j → mk j ∉ held) :
    Lands held (acquireUpTo mk ok i left)
      (held ∪ block mk i (acquireUpTo mk ok i left).result) := by
  induction left generalizing i held with
  | zero => simp [acquireUpTo, Lands, block]
  | succ left ih =>
    unfold acquireUpTo
    split
    case isFalse => simp [Lands, block]
    case isTrue =>
      have hnext : ∀ j, i + 1 ≤ j → mk j ∉ insert (mk i) held := by
        intro j hj hmem
        rcases Finset.mem_insert.mp hmem with heq | hin
        · have := hmk heq
          omega
        · exact hfree j (by omega) hin
      have hlt := (acquireUpTo_le mk ok (i + 1) left).1
      have hset : insert (mk i) held ∪ block mk (i + 1) (acquireUpTo mk ok (i + 1) left).result
          = held ∪ block mk i (acquireUpTo mk ok (i + 1) left).result := by
        rw [← block_cons mk hlt, Finset.insert_union, Finset.union_insert]
      unfold Lands
      rw [wp_bind, wp_acquire, result_bind, ← hset]
      exact ⟨hfree i (le_refl i), ih (i + 1) hnext⟩

theorem toFinset_map_range (mk : Nat → ρ) (k : Nat) :
    ((List.range k).map mk).toFinset = block mk 0 k := by
  ext r
  simp [block]

theorem lands_releaseBlock {mk : Nat → ρ} (hmk : Function.Injective mk) {k : Nat}
    (hheld : block mk 0 k ⊆ held) :
    Lands held (releaseAll ((List.range k).map mk)) (held \ block mk 0 k) := by
  rw [← toFinset_map_range] at hheld ⊢
  apply lands_releaseAll
  · exact List.nodup_range.map hmk
  · intro r hr
    exact hheld (List.mem_toFinset.mpr hr)

end Loops

end PdmaXen.Ledger
