import Mathlib.Data.List.ReduceOption
import PdmaXen.Circular

/-!
# The queues of a Net_Dom0 back end

`xen_queue.c` on the links of the queue heads and of the `element` of every
`req_task`. As long as no element is pushed twice the four queues are separate
rings, and `xen_queue_push` and `xen_queue_pop` work on them as on lists.
-/

namespace PdmaXen.NetDom0.Objects
set_option autoImplicit false
open Circular

inductive QueueId where
  | native | sendtocli | remote | submit
deriving DecidableEq

/-- A queue head, or the `element` of a task. -/
inductive Ptr where
  | head (q : QueueId)
  | element (n : Nat)
deriving DecidableEq

abbrev Memory := Links Ptr

def xenQueueInit (m : Memory) (head : Ptr) : Memory := (m.setNext head head).setPrev head head

def xenQueuePush (m : Memory) (head queueElement : Ptr) : Memory :=
  let last := m.prev head
  let m := m.setNext queueElement head
  let m := m.setPrev queueElement last
  let m := m.setNext last queueElement
  m.setPrev head queueElement

/-- `none` is the NULL of an empty queue. -/
def xenQueuePop (m : Memory) (head : Ptr) : Memory × Option Ptr :=
  let first := m.next head
  if first = head then (m, none)
  else
    let m := m.setNext head (m.next first)
    let m := m.setPrev (m.next first) head
    let m := m.setNext first first
    (m.setPrev first first, some first)

def xenQueueIsEmpty (m : Memory) (head : Ptr) : Bool := m.next head = head

/-- The memory after `dom_init`; a role uses its own two of the queues. -/
def initQueues (m : Memory) : Memory :=
  xenQueueInit (xenQueueInit (xenQueueInit (xenQueueInit m (.head .native)) (.head .sendtocli))
    (.head .remote)) (.head .submit)

def Holds (m : Memory) (queued : QueueId → List Nat) : Prop :=
  Rings m Ptr.head fun q => (queued q).map Ptr.element

/-- The task of a queue element; none for NULL. -/
def containerOf : Option Ptr → Option Nat
  | some (.element n) => some n
  | _ => none

/-- The links with the history of the queues: the tasks pushed and what the pops returned. -/
structure Queues where
  memory : Memory
  pushed : QueueId → List Nat := fun _ => []
  popped : QueueId → List (Option Ptr) := fun _ => []

namespace Queues

def push (k : Queues) (q : QueueId) (n : Nat) : Queues :=
  { k with
    memory := xenQueuePush k.memory (.head q) (.element n)
    pushed := Function.update k.pushed q (k.pushed q ++ [n]) }

def pop (k : Queues) (q : QueueId) : Queues :=
  let (memory, element) := xenQueuePop k.memory (.head q)
  { k with memory, popped := Function.update k.popped q (k.popped q ++ [element]) }

def front (k : Queues) (q : QueueId) : Option Nat :=
  containerOf (xenQueuePop k.memory (.head q)).2

def queued (k : Queues) (q : QueueId) : List Nat :=
  (k.pushed q).drop (k.popped q).reduceOption.length

def all (k : Queues) : List Nat :=
  k.queued .native ++ (k.queued .sendtocli ++ (k.queued .remote ++ k.queued .submit))

/-- The links hold the tasks pushed and not yet popped, and the pops returned the tasks
in the order of their pushes. -/
structure Sound (k : Queues) : Prop where
  holds : Holds k.memory k.queued
  fifo : ∀ q, (k.popped q).reduceOption
    = ((k.pushed q).take (k.popped q).reduceOption.length).map Ptr.element

end Queues

/-! ## The queues as lists -/

theorem element_mem {q : QueueId} {l : List Nat} {n : Nat} :
    Ptr.element n ∈ Ptr.head q :: l.map Ptr.element ↔ n ∈ l := by
  simp

theorem holds_of_ring {m : Memory} {queued : QueueId → List Nat}
    (ring : ∀ q, Ring m (.head q) ((queued q).map Ptr.element))
    (apart : ∀ {q q' n}, q ≠ q' → n ∈ queued q → n ∉ queued q') : Holds m queued where
  ring := ring
  apart := by
    intro q q' x hne hx hx'
    cases x with
    | head p =>
      simp only [List.mem_cons, Ptr.head.injEq, List.mem_map, reduceCtorEq, and_false, exists_false,
        or_false] at hx hx'
      exact hne (hx.symm.trans hx')
    | element n => exact apart hne (element_mem.mp hx) (element_mem.mp hx')

section
variable {m : Memory} {queued : QueueId → List Nat}

theorem Holds.apart (h : Holds m queued) {q q' : QueueId} {n : Nat} (hne : q ≠ q')
    (hn : n ∈ queued q) : n ∉ queued q' :=
  fun hn' => Rings.apart h hne (element_mem.mpr hn) (element_mem.mpr hn')

theorem holds_initQueues (m : Memory) : Holds (initQueues m) fun _ => [] := by
  apply holds_of_ring
  · intro q
    have hne : ∀ {q q' : QueueId}, q' ≠ q → Ptr.head q' ∉ Ptr.head q :: [] := by
      intro q q' hqq' hmem
      exact hqq' (Ptr.head.inj (List.mem_singleton.mp hmem))
    cases q with
    | native =>
      exact (((close_ring m _).close (hne (by decide))).close (hne (by decide))).close
        (hne (by decide))
    | sendtocli => exact ((close_ring _ _).close (hne (by decide))).close (hne (by decide))
    | remote => exact (close_ring _ _).close (hne (by decide))
    | submit => exact close_ring _ _
  · intro q q' n _ hn
    cases hn

theorem map_update (queued : QueueId → List Nat) (q : QueueId) (l : List Nat) :
    (fun q' => (Function.update queued q l q').map Ptr.element)
      = Function.update (fun q' => (queued q').map Ptr.element) q (l.map Ptr.element) := by
  funext q'
  by_cases h : q' = q
  · subst h
    rw [Function.update_self, Function.update_self]
  · rw [Function.update_of_ne h, Function.update_of_ne h]

theorem Holds.push (h : Holds m queued) (q : QueueId) {n : Nat} (hn : ∀ q', n ∉ queued q') :
    Holds (xenQueuePush m (.head q) (.element n)) (Function.update queued q (queued q ++ [n])) := by
  unfold Holds
  rw [map_update, List.map_append]
  exact Rings.insertLast h q fun q' hmem => hn q' (element_mem.mp hmem)

theorem Holds.pop (h : Holds m queued) (q : QueueId) :
    (xenQueuePop m (.head q)).2 = (queued q).head?.map Ptr.element ∧
      Holds (xenQueuePop m (.head q)).1 (Function.update queued q (queued q).tail) := by
  have hring := h.ring q
  cases hq : queued q with
  | nil =>
    have hempty : m.next (.head q) = .head q := by
      rw [hring.next_eq_iff, hq]
      rfl
    have hself : Function.update queued q ([] : List Nat).tail = queued := by
      rw [List.tail_nil, ← hq, Function.update_eq_self]
    rw [hself]
    simp only [xenQueuePop, hempty, if_true]
    exact ⟨rfl, h⟩
  | cons n rest =>
    rw [hq] at hring
    have hfirst : m.next (.head q) = .element n := hring.path.1
    have hne : ¬ m.next (.head q) = .head q := by
      rw [hfirst]
      exact Ptr.noConfusion
    simp only [xenQueuePop, hne, if_false]
    refine ⟨by rw [hfirst]; rfl, ?_⟩
    unfold Holds
    rw [map_update]
    apply Rings.removeFirst (x := .element n) h
    rw [hq]
    rfl

theorem Holds.isEmpty (h : Holds m queued) (q : QueueId) :
    xenQueueIsEmpty m (.head q) = (queued q).isEmpty := by
  have hring := (h.ring q).next_eq_iff
  rw [List.map_eq_nil_iff] at hring
  rw [xenQueueIsEmpty, Bool.eq_iff_iff, List.isEmpty_iff, decide_eq_true_iff, hring]

/-- A task can be reached from a queue's head only while it is on that queue. -/
theorem Holds.linked_iff (h : Holds m queued) {q : QueueId} {n : Nat} :
    Linked m (.head q) (.element n) ↔ n ∈ queued q := by
  rw [(h.ring q).linked_iff Ptr.noConfusion]
  simp

end

namespace Queues
variable {k : Queues} {q : QueueId} {n : Nat}

theorem mem_all {n : Nat} : n ∈ k.all ↔ ∃ q, n ∈ k.queued q := by
  simp only [all, List.mem_append]
  constructor
  · rintro (h | h | h | h) <;> exact ⟨_, h⟩
  · rintro ⟨q, h⟩
    cases q <;> simp [h]

theorem sound_init (m : Memory) : Sound { memory := initQueues m } where
  holds := holds_initQueues m
  fifo := fun _ => rfl

theorem Sound.length_le (h : k.Sound) (q : QueueId) :
    (k.popped q).reduceOption.length ≤ (k.pushed q).length := by
  have hlen := congrArg List.length (h.fifo q)
  rw [List.length_map, List.length_take] at hlen
  omega

theorem Sound.front_eq (h : k.Sound) (q : QueueId) : k.front q = (k.queued q).head? := by
  rw [front, (h.holds.pop q).1]
  cases (k.queued q).head? <;> rfl

theorem Sound.queued_push (h : k.Sound) (q : QueueId) (n : Nat) :
    (k.push q n).queued = Function.update k.queued q (k.queued q ++ [n]) := by
  funext q'
  by_cases hq : q' = q
  · subst hq
    rw [Function.update_self]
    simp only [queued, push, Function.update_self]
    rw [List.drop_append_of_le_length (h.length_le q')]
  · rw [Function.update_of_ne hq]
    simp only [queued, push, Function.update_of_ne hq]

theorem Sound.queued_pop (h : k.Sound) (q : QueueId) :
    (k.pop q).queued = Function.update k.queued q (k.queued q).tail := by
  funext q'
  by_cases hq : q' = q
  · subst hq
    rw [Function.update_self]
    simp only [queued, pop, Function.update_self]
    rw [(h.holds.pop q').1, List.reduceOption_append]
    cases hhead : (k.queued q').head? with
    | none =>
      have hnil : k.queued q' = [] := List.head?_eq_none_iff.mp hhead
      simp only [Option.map_none, List.reduceOption_singleton, Option.toList_none, List.append_nil]
      rw [queued] at hnil
      rw [hnil]
      rfl
    | some n =>
      simp only [Option.map_some, List.reduceOption_singleton, Option.toList_some,
        List.length_append, List.length_singleton, ← List.drop_one, List.drop_drop]
  · rw [Function.update_of_ne hq]
    simp only [queued, pop, Function.update_of_ne hq]

theorem Sound.push (h : k.Sound) (q : QueueId) (hn : n ∉ k.all) : (k.push q n).Sound where
  holds := by
    rw [h.queued_push]
    exact h.holds.push q fun q' hmem => hn (mem_all.mpr ⟨q', hmem⟩)
  fifo := by
    intro q'
    by_cases hq : q' = q
    · subst hq
      simp only [Queues.push, Function.update_self]
      rw [List.take_append_of_le_length (h.length_le q')]
      exact h.fifo q'
    · simp only [Queues.push, Function.update_of_ne hq]
      exact h.fifo q'

theorem Sound.pop (h : k.Sound) (q : QueueId) : (k.pop q).Sound where
  holds := by
    rw [h.queued_pop]
    exact (h.holds.pop q).2
  fifo := by
    intro q'
    by_cases hq : q' = q
    · subst hq
      simp only [Queues.pop, Function.update_self]
      rw [(h.holds.pop q').1, List.reduceOption_append]
      cases hhead : (k.queued q').head? with
      | none =>
        simp only [Option.map_none, List.reduceOption_singleton, Option.toList_none,
          List.append_nil]
        exact h.fifo q'
      | some n =>
        have hget : (k.pushed q')[(k.popped q').reduceOption.length]? = some n := by
          rw [← hhead, queued, List.head?_drop]
        simp only [Option.map_some, List.reduceOption_singleton, Option.toList_some,
          List.length_append, List.length_singleton, List.take_add_one, hget, List.map_append]
        exact congrArg (· ++ [Ptr.element n]) (h.fifo q')
    · simp only [Queues.pop, Function.update_of_ne hq]
      exact h.fifo q'

theorem all_perm_of_update {k k' : Queues} {l : List Nat}
    (h : k'.queued = Function.update k.queued q l) (hl : (k.queued q).Perm (n :: l)) :
    k.all.Perm (n :: k'.all) := by
  rw [List.perm_iff_count]
  intro x
  have hx := hl.count_eq x
  simp only [all, h, List.count_append, List.count_cons] at hx ⊢
  generalize (if (n == x) = true then 1 else 0) = i at hx ⊢
  cases q <;> simp only [Function.update, reduceCtorEq, dite_false, dite_true] <;> omega

theorem Sound.all_push (h : k.Sound) (q : QueueId) (n : Nat) :
    (k.push q n).all.Perm (n :: k.all) := by
  apply all_perm_of_update (q := q) (l := k.queued q)
  · rw [h.queued_push, Function.update_idem, Function.update_eq_self]
  · rw [h.queued_push, Function.update_self]
    exact List.perm_append_singleton n _

theorem Sound.all_pop (h : k.Sound) (hn : k.front q = some n) : k.all.Perm (n :: (k.pop q).all) := by
  rw [h.front_eq, List.head?_eq_some_iff] at hn
  obtain ⟨rest, hrest⟩ := hn
  apply all_perm_of_update (h.queued_pop q)
  rw [hrest]
  exact List.Perm.refl _

theorem Sound.all_miss (h : k.Sound) (hn : k.front q = none) : (k.pop q).all = k.all := by
  rw [h.front_eq, List.head?_eq_none_iff] at hn
  have hsame : (k.pop q).queued = k.queued := by
    rw [h.queued_pop, hn, List.tail_nil, ← hn, Function.update_eq_self]
  rw [all, hsame, all]

end Queues

end PdmaXen.NetDom0.Objects
