import Mathlib.Data.Finset.Card
import Mathlib.Data.List.Perm.Basic
import Mathlib.Data.List.Perm.Subperm
import Mathlib.Data.List.Nodup
import Mathlib.Logic.Function.Basic

/-!
# Pools of items that are listed or held

`L` concatenates the lists an item can wait on and `H` says what each process
holds. Taking, putting back and moving an item are the only ways a pool changes,
and each keeps an item in one place. `Counted` ties an integer counter to the
processes that satisfy a predicate.
-/

namespace PdmaXen.Pool
set_option autoImplicit false

universe u v
variable {ι : Type u} {β : Type v}

/-- No item is listed twice, listed while it is held, or held twice. -/
structure Exclusive (L : List β) (H : ι → Option β) : Prop where
  nodup : L.Nodup
  off : ∀ {p b}, H p = some b → b ∉ L
  single : ∀ {p q b}, H p = some b → H q = some b → p = q

/-- The items of the pool are exactly those that are listed or held. -/
def Covers (U : β → Prop) (L : List β) (H : ι → Option β) : Prop :=
  ∀ b, U b ↔ b ∈ L ∨ ∃ p, H p = some b

namespace Exclusive
variable {L L' : List β} {H : ι → Option β} {p : ι} {b : β}

theorem perm (h : Exclusive L H) (hp : L.Perm L') : Exclusive L' H :=
  ⟨hp.nodup_iff.mp h.nodup, fun hb hm => h.off hb (hp.mem_iff.mpr hm), h.single⟩

theorem of_none (hL : L.Nodup) (hH : ∀ p, H p = none) : Exclusive L H :=
  ⟨hL, by simp [hH], by simp [hH]⟩

theorem length_le {U : List β} (h : Exclusive L H) (hU : L ⊆ U) : L.length ≤ U.length :=
  (h.nodup.subperm hU).length_le

/-- A held item leaves a place on the lists. -/
theorem length_lt {U : List β} (h : Exclusive L H) (hU : L ⊆ U) (hH : H p = some b) (hb : b ∈ U) :
    L.length < U.length := by
  have hnodup : (b :: L).Nodup := List.nodup_cons.mpr ⟨h.off hH, h.nodup⟩
  have hsub : b :: L ⊆ U := List.cons_subset.mpr ⟨hb, hU⟩
  exact (hnodup.subperm hsub).length_le

variable [DecidableEq ι]

theorem take (h : Exclusive L H) (hp : L.Perm (b :: L')) :
    Exclusive L' (Function.update H p (some b)) := by
  have hcons := h.perm hp
  obtain ⟨hb, hnodup⟩ := List.nodup_cons.mp hcons.nodup
  refine ⟨hnodup, ?_, ?_⟩
  · intro q c hq hc
    by_cases hqp : q = p
    · subst q
      rw [Function.update_self] at hq
      cases hq
      exact hb hc
    · rw [Function.update_of_ne hqp] at hq
      exact hcons.off hq (List.mem_cons_of_mem b hc)
  · intro q r c hq hr
    by_cases hqp : q = p <;> by_cases hrp : r = p
    · rw [hqp, hrp]
    · subst q
      rw [Function.update_self] at hq
      rw [Function.update_of_ne hrp] at hr
      cases hq
      exact absurd List.mem_cons_self (hcons.off hr)
    · subst r
      rw [Function.update_self] at hr
      rw [Function.update_of_ne hqp] at hq
      cases hr
      exact absurd List.mem_cons_self (hcons.off hq)
    · rw [Function.update_of_ne hqp] at hq
      rw [Function.update_of_ne hrp] at hr
      exact h.single hq hr

theorem drop (h : Exclusive L H) : Exclusive L (Function.update H p none) := by
  have hsub : ∀ {q c}, Function.update H p none q = some c → H q = some c := by
    intro q c hq
    by_cases hqp : q = p
    · subst q
      simp at hq
    · rwa [Function.update_of_ne hqp] at hq
  exact ⟨h.nodup, fun hq => h.off (hsub hq), fun hq hr => h.single (hsub hq) (hsub hr)⟩

theorem put (h : Exclusive L H) (hH : H p = some b) (hp : L'.Perm (b :: L)) :
    Exclusive L' (Function.update H p none) := by
  have hnodup : (b :: L).Nodup := List.nodup_cons.mpr ⟨h.off hH, h.nodup⟩
  refine ⟨hp.nodup_iff.mpr hnodup, ?_, h.drop.single⟩
  intro q c hq hc
  have hqp : q ≠ p := by
    rintro rfl
    simp at hq
  rw [Function.update_of_ne hqp] at hq
  rcases List.mem_cons.mp (hp.mem_iff.mp hc) with rfl | hm
  · exact hqp (h.single hq hH)
  · exact h.off hq hm

end Exclusive

namespace Covers
variable {U : β → Prop} {L L' : List β} {H : ι → Option β} {p : ι} {b : β}

theorem perm (h : Covers U L H) (hp : L.Perm L') : Covers U L' H :=
  fun c => (h c).trans (or_congr_left hp.mem_iff)

theorem of_none (hL : ∀ b, U b ↔ b ∈ L) (hH : ∀ p, H p = none) : Covers U L H := by
  intro b
  simp [hL, hH]

variable [DecidableEq ι]

theorem take (h : Covers U L H) (hH : H p = none) (hp : L.Perm (b :: L')) :
    Covers U L' (Function.update H p (some b)) := by
  intro c
  rw [h c, hp.mem_iff, List.mem_cons]
  constructor
  · rintro ((rfl | hm) | ⟨q, hq⟩)
    · exact .inr ⟨p, Function.update_self ..⟩
    · exact .inl hm
    · have hqp : q ≠ p := by
        rintro rfl
        simp [hH] at hq
      exact .inr ⟨q, by rwa [Function.update_of_ne hqp]⟩
  · rintro (hm | ⟨q, hq⟩)
    · exact .inl (.inr hm)
    · by_cases hqp : q = p
      · subst q
        rw [Function.update_self] at hq
        exact .inl (.inl (Option.some.inj hq).symm)
      · exact .inr ⟨q, by rwa [Function.update_of_ne hqp] at hq⟩

theorem put (h : Covers U L H) (hH : H p = some b) (hp : L'.Perm (b :: L)) :
    Covers U L' (Function.update H p none) := by
  intro c
  rw [h c, hp.mem_iff, List.mem_cons]
  constructor
  · rintro (hm | ⟨q, hq⟩)
    · exact .inl (.inr hm)
    · by_cases hqp : q = p
      · subst q
        rw [hH] at hq
        exact .inl (.inl (Option.some.inj hq).symm)
      · exact .inr ⟨q, by rwa [Function.update_of_ne hqp]⟩
  · rintro ((rfl | hm) | ⟨q, hq⟩)
    · exact .inr ⟨p, hH⟩
    · exact .inl hm
    · have hqp : q ≠ p := by
        rintro rfl
        simp at hq
      exact .inr ⟨q, by rwa [Function.update_of_ne hqp] at hq⟩

end Covers

/-- `n` is the number of indices that satisfy `P`. -/
def Counted (P : ι → Bool) (n : Int) : Prop :=
  ∃ S : Finset ι, (∀ x, x ∈ S ↔ P x = true) ∧ (S.card : Int) = n

/-- One index joins or leaves, or nothing changes, and the counter follows. -/
inductive Tick : Bool → Bool → Int → Int → Prop where
  | stay (b : Bool) (n : Int) : Tick b b n n
  | enter (n : Int) : Tick false true n (n + 1)
  | leave (n : Int) : Tick true false n (n - 1)

namespace Counted
variable {P Q : ι → Bool} {n m : Int} {x : ι}

theorem empty (h : ∀ x, P x = false) : Counted P 0 := ⟨∅, by simp [h], rfl⟩

theorem congr (h : Counted P n) (hPQ : ∀ x, Q x = P x) : Counted Q n := by
  obtain ⟨S, hS, hn⟩ := h
  exact ⟨S, fun x => by rw [hPQ]; exact hS x, hn⟩

theorem none_of_zero (h : Counted P 0) (x : ι) : P x = false := by
  obtain ⟨S, hS, hn⟩ := h
  have hcard : S.card = 0 := by exact_mod_cast hn
  rw [← Bool.not_eq_true, ← hS x, Finset.card_eq_zero.mp hcard]
  exact Finset.notMem_empty x

variable [DecidableEq ι]

theorem tick (h : Counted P n) (hx : Tick (P x) (Q x) n m) (hother : ∀ y, y ≠ x → Q y = P y) :
    Counted Q m := by
  obtain ⟨S, hS, rfl⟩ := h
  generalize hP : P x = b at hx
  generalize hQ : Q x = c at hx
  cases hx with
  | stay =>
    refine ⟨S, fun y => ?_, rfl⟩
    by_cases hy : y = x
    · rw [hS, hy, hP, hQ]
    · rw [hS, hother y hy]
  | enter =>
    have hmem : x ∉ S := by simp [hS, hP]
    refine ⟨insert x S, fun y => ?_, ?_⟩
    · rw [Finset.mem_insert, hS]
      by_cases hy : y = x
      · simp [hy, hQ]
      · simp [hy, hother y hy]
    · rw [Finset.card_insert_of_notMem hmem]
      push_cast
      rfl
  | leave =>
    have hmem : x ∈ S := (hS x).mpr hP
    have hpos : 0 < S.card := Finset.card_pos.mpr ⟨x, hmem⟩
    refine ⟨S.erase x, fun y => ?_, ?_⟩
    · rw [Finset.mem_erase, hS]
      by_cases hy : y = x
      · simp [hy, hQ]
      · simp [hy, hother y hy]
    · rw [Finset.card_erase_of_mem hmem]
      omega

end Counted

end PdmaXen.Pool
