import Mathlib.Data.List.Nodup
import Mathlib.Logic.Function.Iterate

/-!
# Circular doubly linked lists

Nodes with two links. A head with the nodes it reaches is a ring; rings that share
no node can live in one memory, and an operation on one leaves the others alone.
-/

namespace PdmaXen.Circular
set_option autoImplicit false

universe u v
variable {α : Type u}

/-- The two links of every node. -/
structure Links (α : Type u) where
  next : α → α
  prev : α → α

namespace Links
variable [DecidableEq α]

def setNext (m : Links α) (a b : α) : Links α := { m with next := Function.update m.next a b }

def setPrev (m : Links α) (a b : α) : Links α := { m with prev := Function.update m.prev a b }

def close (m : Links α) (head : α) : Links α := (m.setNext head head).setPrev head head

/-- Link `e` in between the last node and the head. -/
def insertLast (m : Links α) (head e : α) : Links α :=
  (((m.setNext e head).setPrev e (m.prev head)).setNext (m.prev head) e).setPrev head e

/-- Unlink the first node and close it on itself. -/
def removeFirst (m : Links α) (head : α) : Links α :=
  let first := m.next head
  let m := m.setNext head (m.next first)
  ((m.setPrev (m.next first) head).setNext first first).setPrev first first

end Links

/-- From `a` through the nodes of the list to `b`, linked both ways. -/
def Path (m : Links α) : α → List α → α → Prop
  | a, [], b => m.next a = b ∧ m.prev b = a
  | a, x :: l, b => m.next a = x ∧ m.prev x = a ∧ Path m x l b

/-- The nodes linked to a head, in their order. -/
structure Ring (m : Links α) (head : α) (l : List α) : Prop where
  path : Path m head l head
  nodup : (head :: l).Nodup

def Linked (m : Links α) (head x : α) : Prop := ∃ k : Nat, m.next^[k] head = x

section Path
variable {m m' : Links α} {a b e x head : α} {l : List α}

theorem Path.congr (h : Path m a l b) (next : ∀ x ∈ a :: l, m'.next x = m.next x)
    (prev : ∀ x, x ∈ l ∨ x = b → m'.prev x = m.prev x) : Path m' a l b := by
  induction l generalizing a with
  | nil =>
    refine ⟨?_, ?_⟩
    · rw [next a List.mem_cons_self]
      exact h.1
    · rw [prev b (Or.inr rfl)]
      exact h.2
  | cons x l ih =>
    obtain ⟨hnext, hprev, hrest⟩ := h
    refine ⟨?_, ?_, ?_⟩
    · rw [next a List.mem_cons_self]
      exact hnext
    · rw [prev x (Or.inl List.mem_cons_self)]
      exact hprev
    · apply ih hrest
      · exact fun y hy => next y (List.mem_cons_of_mem a hy)
      · exact fun y hy => prev y (hy.imp_left (List.mem_cons_of_mem x))

theorem Path.last_mem (h : Path m a l b) : m.prev b ∈ a :: l := by
  induction l generalizing a with
  | nil =>
    rw [h.2]
    exact List.mem_cons_self
  | cons x l ih => exact List.mem_cons_of_mem a (ih h.2.2)

theorem Path.next_mem (h : Path m a l b) : m.next a ∈ l ∨ m.next a = b := by
  cases l with
  | nil => exact Or.inr h.1
  | cons x l =>
    rw [h.1]
    exact Or.inl List.mem_cons_self

theorem Path.redirect (h : Path m a l b) (nodup : (a :: l).Nodup)
    (last : m'.next (m.prev b) = e) (back : m'.prev e = m.prev b)
    (next : ∀ x ∈ a :: l, x ≠ m.prev b → m'.next x = m.next x)
    (prev : ∀ x ∈ l, m'.prev x = m.prev x) : Path m' a l e := by
  induction l generalizing a with
  | nil =>
    rw [h.2] at last back
    exact ⟨last, back⟩
  | cons x l ih =>
    obtain ⟨hnext, hprev, hrest⟩ := h
    obtain ⟨hnotin, hnodup⟩ := List.nodup_cons.mp nodup
    have hne : a ≠ m.prev b := fun heq => hnotin (heq ▸ hrest.last_mem)
    refine ⟨?_, ?_, ?_⟩
    · rw [next a List.mem_cons_self hne]
      exact hnext
    · rw [prev x List.mem_cons_self]
      exact hprev
    · apply ih hrest hnodup
      · exact fun y hy => next y (List.mem_cons_of_mem a hy)
      · exact fun y hy => prev y (List.mem_cons_of_mem x hy)

theorem Path.snoc (h : Path m a l e) (next : m.next e = b) (prev : m.prev b = e) :
    Path m a (l ++ [e]) b := by
  induction l generalizing a with
  | nil => exact ⟨h.1, h.2, next, prev⟩
  | cons x l ih => exact ⟨h.1, h.2.1, ih h.2.2⟩

theorem Path.prev_next (h : Path m a l b) (hx : x ∈ a :: l) : m.prev (m.next x) = x := by
  induction l generalizing a with
  | nil =>
    obtain rfl := List.mem_singleton.mp hx
    rw [h.1]
    exact h.2
  | cons y l ih =>
    rcases List.mem_cons.mp hx with rfl | hx
    · rw [h.1]
      exact h.2.1
    · exact ih h.2.2 hx

theorem Path.next_prev (h : Path m a l b) (hx : x ∈ l ∨ x = b) : m.next (m.prev x) = x := by
  induction l generalizing a with
  | nil =>
    rcases hx with hx | rfl
    · cases hx
    · rw [h.2]
      exact h.1
  | cons y l ih =>
    rcases hx with hx | hx
    · rcases List.mem_cons.mp hx with rfl | hx
      · rw [h.2.1]
        exact h.1
      · exact ih h.2.2 (Or.inl hx)
    · exact ih h.2.2 (Or.inr hx)

theorem Ring.prev_next (h : Ring m head l) (hx : x ∈ head :: l) : m.prev (m.next x) = x :=
  h.path.prev_next hx

theorem Ring.next_prev (h : Ring m head l) (hx : x ∈ head :: l) : m.next (m.prev x) = x := by
  apply h.path.next_prev
  rcases List.mem_cons.mp hx with rfl | hx
  · exact Or.inr rfl
  · exact Or.inl hx

/-- Walking on from the head stays among the nodes of its ring. -/
theorem Ring.iterate_mem (h : Ring m head l) (k : Nat) : m.next^[k] head ∈ head :: l := by
  induction k with
  | zero => exact List.mem_cons_self
  | succ k ih =>
    rw [Function.iterate_succ_apply']
    have hclosed : ∀ (l : List α) (a : α), Path m a l head → ∀ y ∈ a :: l,
        m.next y ∈ head :: l := by
      intro l
      induction l with
      | nil =>
        intro a ha y hy
        obtain rfl := List.mem_singleton.mp hy
        rw [ha.1]
        exact List.mem_cons_self
      | cons x l ih =>
        intro a ha y hy
        rcases List.mem_cons.mp hy with rfl | hy
        · rw [ha.1]
          exact List.mem_cons_of_mem head List.mem_cons_self
        · rcases List.mem_cons.mp (ih x ha.2.2 y hy) with heq | hmem
          · rw [heq]
            exact List.mem_cons_self
          · exact List.mem_cons_of_mem head (List.mem_cons_of_mem x hmem)
    exact hclosed l head h.path _ ih

theorem Ring.linked (h : Ring m head l) (hx : Linked m head x) : x ∈ head :: l := by
  obtain ⟨k, rfl⟩ := hx
  exact h.iterate_mem k

theorem Path.linked (h : Path m a l b) (hx : x ∈ l) : Linked m a x := by
  induction l generalizing a with
  | nil => cases hx
  | cons y l ih =>
    rcases List.mem_cons.mp hx with rfl | hx
    · exact ⟨1, h.1⟩
    · obtain ⟨k, hk⟩ := ih h.2.2 hx
      refine ⟨k + 1, ?_⟩
      rw [Function.iterate_succ_apply, h.1]
      exact hk

theorem Ring.linked_iff (h : Ring m head l) (hx : x ≠ head) : Linked m head x ↔ x ∈ l := by
  constructor
  · intro hlinked
    rcases List.mem_cons.mp (h.linked hlinked) with heq | hmem
    · exact absurd heq hx
    · exact hmem
  · exact h.path.linked

theorem Ring.next_eq_iff (h : Ring m head l) : m.next head = head ↔ l = [] := by
  constructor
  · intro hnext
    cases l with
    | nil => rfl
    | cons x l =>
      have heq : x = head := h.path.1.symm.trans hnext
      exact absurd (heq ▸ List.mem_cons_self) (List.nodup_cons.mp h.nodup).1
  · rintro rfl
    exact h.path.1

end Path

section Operations
variable [DecidableEq α] {m : Links α} {e x head : α} {l : List α}

theorem close_ring (m : Links α) (head : α) : Ring (m.close head) head [] where
  path := by simp [Path, Links.close, Links.setNext, Links.setPrev]
  nodup := List.nodup_singleton head

theorem close_next_of_ne (m : Links α) (h : x ≠ head) : (m.close head).next x = m.next x := by
  simp [Links.close, Links.setNext, Links.setPrev, h]

theorem close_prev_of_ne (m : Links α) (h : x ≠ head) : (m.close head).prev x = m.prev x := by
  simp [Links.close, Links.setNext, Links.setPrev, h]

theorem insertLast_next_of_ne (he : x ≠ e) (hlast : x ≠ m.prev head) :
    (m.insertLast head e).next x = m.next x := by
  simp [Links.insertLast, Links.setNext, Links.setPrev, he, hlast]

theorem insertLast_prev_of_ne (he : x ≠ e) (hhead : x ≠ head) :
    (m.insertLast head e).prev x = m.prev x := by
  simp [Links.insertLast, Links.setNext, Links.setPrev, he, hhead]

theorem Ring.insertLast (h : Ring m head l) (he : e ∉ head :: l) :
    Ring (m.insertLast head e) head (l ++ [e]) := by
  have hlast := h.path.last_mem
  have hne : e ≠ m.prev head := fun heq => he (heq ▸ hlast)
  have hhead : e ≠ head := fun heq => he (heq ▸ List.mem_cons_self)
  refine ⟨?_, ?_⟩
  · apply Path.snoc
    · apply h.path.redirect h.nodup
      · simp [Links.insertLast, Links.setNext, Links.setPrev]
      · simp [Links.insertLast, Links.setNext, Links.setPrev, hhead]
      · exact fun x hx hxl => insertLast_next_of_ne (fun heq => he (heq ▸ hx)) hxl
      · intro x hx
        apply insertLast_prev_of_ne
        · exact fun heq => he (heq ▸ List.mem_cons_of_mem head hx)
        · exact fun heq => (List.nodup_cons.mp h.nodup).1 (heq ▸ hx)
    · simp [Links.insertLast, Links.setNext, Links.setPrev, hne]
    · simp [Links.insertLast, Links.setNext, Links.setPrev]
  · rw [← List.cons_append, List.nodup_append]
    refine ⟨h.nodup, List.nodup_singleton e, fun x hx y hy heq => he ?_⟩
    rwa [← List.mem_singleton.mp hy, ← heq]

theorem removeFirst_next_of_ne (hhead : x ≠ head) (hfirst : x ≠ m.next head) :
    (m.removeFirst head).next x = m.next x := by
  simp [Links.removeFirst, Links.setNext, Links.setPrev, hhead, hfirst]

theorem removeFirst_prev_of_ne (hfirst : x ≠ m.next head) (hsecond : x ≠ m.next (m.next head))
    (hne : m.next head ≠ head) : (m.removeFirst head).prev x = m.prev x := by
  simp [Links.removeFirst, Links.setNext, Links.setPrev, hfirst, hsecond, hne]

theorem Ring.removeFirst (h : Ring m head (x :: l)) : Ring (m.removeFirst head) head l := by
  obtain ⟨hfirst, hback, hrest⟩ := h.path
  obtain ⟨hnotin, hnodup⟩ := List.nodup_cons.mp h.nodup
  obtain ⟨hxl, hl⟩ := List.nodup_cons.mp hnodup
  have hne : x ≠ head := fun heq => hnotin (heq ▸ List.mem_cons_self)
  have hheadl : head ∉ l := fun hmem => hnotin (List.mem_cons_of_mem x hmem)
  refine ⟨?_, List.nodup_cons.mpr ⟨hheadl, hl⟩⟩
  cases l with
  | nil =>
    have hnext : m.next x = head := hrest.1
    refine ⟨?_, ?_⟩
    · simp [Links.removeFirst, Links.setNext, Links.setPrev, hfirst, hne.symm, hne, hnext]
    · simp [Links.removeFirst, Links.setNext, Links.setPrev, hfirst, hne.symm, hne, hnext]
  | cons y l =>
    obtain ⟨hnext, hprev, hpath⟩ := hrest
    have hyx : y ≠ x := fun heq => hxl (heq ▸ List.mem_cons_self)
    refine ⟨?_, ?_, ?_⟩
    · simp [Links.removeFirst, Links.setNext, Links.setPrev, hfirst, hne.symm, hne, hnext]
    · simp [Links.removeFirst, Links.setNext, Links.setPrev, hfirst, hne, hnext, hyx]
    · apply hpath.congr
      · intro z hz
        apply removeFirst_next_of_ne
        · exact fun heq => hheadl (heq ▸ hz)
        · rw [hfirst]
          exact fun heq => hxl (heq ▸ hz)
      · intro z hz
        have hzx : z ≠ m.next head := by
          rw [hfirst]
          rcases hz with hz | rfl
          · exact fun heq => hxl (heq ▸ List.mem_cons_of_mem y hz)
          · exact hne.symm
        apply removeFirst_prev_of_ne hzx
        · rw [hfirst, hnext]
          rcases hz with hz | rfl
          · exact fun heq => (List.nodup_cons.mp hl).1 (heq ▸ hz)
          · exact fun heq => hheadl (heq ▸ List.mem_cons_self)
        · rw [hfirst]
          exact hne

end Operations

/-! ## Several rings -/

/-- A ring for each index, no node in two of them. -/
structure Rings {ι : Type v} (m : Links α) (head : ι → α) (l : ι → List α) : Prop where
  ring : ∀ i, Ring m (head i) (l i)
  apart : ∀ {i j x}, i ≠ j → x ∈ head i :: l i → x ∉ head j :: l j

section Rings
variable {ι : Type v} [DecidableEq α] [DecidableEq ι] {m : Links α} {head : ι → α}
variable {l : ι → List α} {i : ι} {e x : α} {rest : List α}

theorem Rings.insertLast (h : Rings m head l) (i : ι) (he : ∀ j, e ∉ head j :: l j) :
    Rings (m.insertLast (head i) e) head (Function.update l i (l i ++ [e])) := by
  have hmem : ∀ {j x}, x ∈ head j :: Function.update l i (l i ++ [e]) j →
      x ∈ head j :: l j ∨ j = i ∧ x = e := by
    intro j x hx
    by_cases hji : j = i
    · subst hji
      rw [Function.update_self] at hx
      rcases List.mem_cons.mp hx with rfl | hx
      · exact Or.inl List.mem_cons_self
      · rcases List.mem_append.mp hx with hx | hx
        · exact Or.inl (List.mem_cons_of_mem _ hx)
        · exact Or.inr ⟨rfl, List.mem_singleton.mp hx⟩
    · rw [Function.update_of_ne hji] at hx
      exact Or.inl hx
  refine ⟨fun j => ?_, ?_⟩
  · by_cases hji : j = i
    · subst hji
      rw [Function.update_self]
      exact (h.ring j).insertLast (he j)
    · rw [Function.update_of_ne hji]
      have hlast := (h.ring i).path.last_mem
      refine ⟨(h.ring j).path.congr ?_ ?_, (h.ring j).nodup⟩
      · intro y hy
        apply insertLast_next_of_ne
        · exact fun heq => he j (heq ▸ hy)
        · exact fun heq => h.apart hji hy (heq ▸ hlast)
      · intro y hy
        have hy : y ∈ head j :: l j := by
          rcases hy with hy | rfl
          · exact List.mem_cons_of_mem _ hy
          · exact List.mem_cons_self
        apply insertLast_prev_of_ne
        · exact fun heq => he j (heq ▸ hy)
        · exact fun heq => h.apart hji hy (heq ▸ List.mem_cons_self)
  · intro j k x hjk hxj hxk
    rcases hmem hxj with hj | ⟨hji, hxe⟩
    · rcases hmem hxk with hk | ⟨-, hxe⟩
      · exact h.apart hjk hj hk
      · exact he j (hxe ▸ hj)
    · rcases hmem hxk with hk | ⟨hki, -⟩
      · exact he k (hxe ▸ hk)
      · exact hjk (hji.trans hki.symm)

theorem Rings.removeFirst (h : Rings m head l) (hl : l i = x :: rest) :
    Rings (m.removeFirst (head i)) head (Function.update l i rest) := by
  have hring := h.ring i
  rw [hl] at hring
  obtain ⟨hfirst, -, hpath⟩ := hring.path
  have hmem : ∀ {j x}, x ∈ head j :: Function.update l i rest j → x ∈ head j :: l j := by
    intro j y hy
    by_cases hji : j = i
    · subst hji
      rw [Function.update_self] at hy
      rw [hl]
      rcases List.mem_cons.mp hy with rfl | hy
      · exact List.mem_cons_self
      · exact List.mem_cons_of_mem _ (List.mem_cons_of_mem x hy)
    · rwa [Function.update_of_ne hji] at hy
  have hfirstIn : m.next (head i) ∈ head i :: l i := by
    rw [hfirst, hl]
    exact List.mem_cons_of_mem _ List.mem_cons_self
  have hsecondIn : m.next (m.next (head i)) ∈ head i :: l i := by
    rw [hfirst, hl]
    rcases hpath.next_mem with hmem | heq
    · exact List.mem_cons_of_mem _ (List.mem_cons_of_mem x hmem)
    · rw [heq]
      exact List.mem_cons_self
  refine ⟨fun j => ?_, fun hjk hxj hxk => h.apart hjk (hmem hxj) (hmem hxk)⟩
  by_cases hji : j = i
  · subst hji
    rw [Function.update_self]
    exact hring.removeFirst
  · rw [Function.update_of_ne hji]
    refine ⟨(h.ring j).path.congr ?_ ?_, (h.ring j).nodup⟩
    · intro y hy
      apply removeFirst_next_of_ne
      · exact fun heq => h.apart hji hy (heq ▸ List.mem_cons_self)
      · exact fun heq => h.apart hji hy (heq ▸ hfirstIn)
    · intro y hy
      have hy : y ∈ head j :: l j := by
        rcases hy with hy | rfl
        · exact List.mem_cons_of_mem _ hy
        · exact List.mem_cons_self
      apply removeFirst_prev_of_ne
      · exact fun heq => h.apart hji hy (heq ▸ hfirstIn)
      · exact fun heq => h.apart hji hy (heq ▸ hsecondIn)
      · rw [hfirst]
        exact fun heq => (List.nodup_cons.mp hring.nodup).1 (heq ▸ List.mem_cons_self)

theorem Ring.close {h : α} {nodes : List α} (hring : Ring m h nodes) (hx : x ∉ h :: nodes) :
    Ring (m.close x) h nodes := by
  refine ⟨hring.path.congr ?_ ?_, hring.nodup⟩
  · exact fun y hy => close_next_of_ne m fun heq => hx (heq ▸ hy)
  · intro y hy
    apply close_prev_of_ne m
    rintro rfl
    rcases hy with hy | rfl
    · exact hx (List.mem_cons_of_mem h hy)
    · exact hx List.mem_cons_self

end Rings

end PdmaXen.Circular
