import PdmaXen.CInt
import PdmaXen.Fifo
import PdmaXen.NetDom0.Queue

/-!
# One queue of `xen_queue.c` under any calls

The queue behind one head, with the payload of the structures its elements are embedded
in, follows a first in, first out sequence. `xen_queue_length` does not.
-/

namespace PdmaXen.NetDom0.Objects
set_option autoImplicit false
open Circular CInt Machine
open Fifo (Call Fresh)

def xenQueueFront (m : Memory) (head : Ptr) : Option Ptr :=
  if xenQueueIsEmpty m head then none else some (m.next head)

/-- The loop of `xen_queue_length`, at most `fuel` tests of its condition; `element` is
not assigned in it. -/
def lengthLoop (m : Memory) (head element : Ptr) : Nat → Int → Option Int
  | 0, _ => none
  | fuel + 1, length =>
    if m.next element ≠ head then do
      let length ← IntType.fit .signed (length + 1)
      lengthLoop m head element fuel length
    else some length

def xenQueueLength (fuel : Nat) (m : Memory) (head : Ptr) : Option Int :=
  if xenQueueIsEmpty m head then some 0
  else do
    let element ← xenQueueFront m head
    lengthLoop m head element fuel 1

/-- The links and the rest of every task, with what the pops returned. -/
structure Tasks (β : Type) where
  memory : Memory
  payload : Nat → β
  returned : List (Option Ptr) := []

namespace Tasks
variable {β : Type}

def call (q : QueueId) (s : Tasks β) : Call Nat → Option (Tasks β)
  | .init => some { s with memory := xenQueueInit s.memory (.head q) }
  | .push n => some { s with memory := xenQueuePush s.memory (.head q) (.element n) }
  | .pop =>
    let (memory, first) := xenQueuePop s.memory (.head q)
    some { s with memory, returned := s.returned ++ [first] }

end Tasks

def nodes (q : QueueId) (waiting : List Nat) : List Ptr := .head q :: waiting.map .element

/-- What a call leaves of the links: outside of the queue all but those of the element it
returned, which is closed on itself. -/
structure Leaves (q : QueueId) (m m' : Memory) (waiting : List Nat) (returned : Option Ptr) :
    Prop where
  others : ∀ x, x ∉ nodes q waiting → returned ≠ some x → m'.next x = m.next x ∧ m'.prev x = m.prev x
  closed : ∀ x, returned = some x → m'.next x = x ∧ m'.prev x = x

/-- The queue holds what waits in the sequence, and its pops answered as the sequence. -/
structure Follows {β : Type} (q : QueueId) (s₀ s : Tasks β) (f : Fifo.State Nat) : Prop where
  ring : Ring s.memory (.head q) (f.waiting.map .element)
  returned : s.returned = s₀.returned ++ f.answers.map (Option.map .element)
  payload : s.payload = s₀.payload

def Tasks.answer {β : Type} (q : QueueId) (s : Tasks β) : Call Nat → Option Ptr
  | .pop => (xenQueuePop s.memory (.head q)).2
  | _ => none

/-! ## A step and a run -/

section
variable {β : Type} {q : QueueId} {m : Memory} {waiting rest : List Nat} {n : Nat}

theorem not_mem_nodes (hn : n ∉ waiting) : Ptr.element n ∉ nodes q waiting :=
  fun hmem => hn (element_mem.mp hmem)

theorem leaves_init (m : Memory) (q : QueueId) : Leaves q m (xenQueueInit m (.head q)) [] none where
  others := by
    intro x hx _
    have hne : x ≠ .head q := fun heq => hx (heq ▸ List.mem_cons_self)
    exact ⟨close_next_of_ne m hne, close_prev_of_ne m hne⟩
  closed := by
    intro x hx
    cases hx

theorem leaves_push (h : Ring m (.head q) (waiting.map .element)) (n : Nat) :
    Leaves q m (xenQueuePush m (.head q) (.element n)) (waiting ++ [n]) none where
  others := by
    intro x hx _
    have hold : x ∉ Ptr.head q :: waiting.map .element := by
      intro hmem
      apply hx
      rw [nodes, List.map_append, ← List.cons_append]
      exact List.mem_append_left _ hmem
    have hne : x ≠ .element n := by
      rintro rfl
      exact hx (element_mem.mpr (List.mem_append_right _ (List.mem_singleton_self n)))
    constructor
    · exact insertLast_next_of_ne hne fun heq => hold (heq ▸ h.path.last_mem)
    · exact insertLast_prev_of_ne hne fun heq => hold (heq ▸ List.mem_cons_self)
  closed := by
    intro x hx
    cases hx

theorem pop_of_empty (h : Ring m (.head q) []) : xenQueuePop m (.head q) = (m, none) := by
  rw [xenQueuePop, if_pos (h.next_eq_iff.mpr rfl)]

theorem pop_of_ring (h : Ring m (.head q) (.element n :: rest.map .element)) :
    xenQueuePop m (.head q) = (m.removeFirst (.head q), some (.element n)) := by
  have hfirst : m.next (.head q) = .element n := h.path.1
  have hne : ¬ m.next (.head q) = .head q := by
    rw [hfirst]
    exact Ptr.noConfusion
  simp only [xenQueuePop, hne, if_false]
  rw [hfirst]
  simp only [Links.removeFirst, hfirst]

theorem leaves_pop (h : Ring m (.head q) (.element n :: rest.map .element)) :
    Leaves q m (m.removeFirst (.head q)) rest (some (.element n)) where
  others := by
    intro x hx hret
    obtain ⟨hfirst, -, hpath⟩ := h.path
    have hhead : x ≠ .head q := fun heq => hx (heq ▸ List.mem_cons_self)
    have hxn : x ≠ m.next (.head q) := by
      rw [hfirst]
      rintro rfl
      exact hret rfl
    constructor
    · exact removeFirst_next_of_ne hhead hxn
    · apply removeFirst_prev_of_ne hxn
      · rw [hfirst]
        rintro rfl
        rcases hpath.next_mem with hmem | heq
        · exact hx (List.mem_cons_of_mem _ hmem)
        · exact hhead heq
      · rw [hfirst]
        exact Ptr.noConfusion
  closed := by
    intro x hx
    obtain rfl := Option.some.inj hx
    have hfirst : m.next (.head q) = .element n := h.path.1
    simp [Links.removeFirst, Links.setNext, Links.setPrev, hfirst]

theorem call_pop {s : Tasks β} {memory : Memory} {first : Option Ptr}
    (hpop : xenQueuePop s.memory (.head q) = (memory, first)) :
    s.call q .pop = some { s with memory, returned := s.returned ++ [first] } := by
  simp only [Tasks.call, hpop]

theorem Follows.step {s₀ s : Tasks β} {f f' : Fifo.State Nat} {c : Call Nat} (h : Follows q s₀ s f)
    (hfresh : Fresh f c) (hstep : f.step c = some f') :
    ∃ s', s.call q c = some s' ∧ Follows q s₀ s' f' ∧
      Leaves q s.memory s'.memory f'.waiting (s.answer q c) := by
  cases c with
  | init =>
    cases hstep
    refine ⟨_, rfl, ⟨close_ring s.memory (.head q), h.returned, h.payload⟩, leaves_init s.memory q⟩
  | push n =>
    cases hstep
    refine ⟨_, rfl, ⟨?_, h.returned, h.payload⟩, leaves_push h.ring n⟩
    rw [List.map_append]
    exact h.ring.insertLast (not_mem_nodes hfresh)
  | pop =>
    cases hstep
    cases hw : f.waiting with
    | nil =>
      have hring := h.ring
      rw [hw] at hring
      have hpop := pop_of_empty hring
      refine ⟨_, call_pop hpop, ⟨hring, ?_, h.payload⟩, ?_⟩
      · simp [h.returned]
      · rw [Tasks.answer, hpop]
        refine ⟨fun x _ _ => ⟨rfl, rfl⟩, fun x hx => ?_⟩
        cases hx
    | cons n rest =>
      have hring := h.ring
      rw [hw, List.map_cons] at hring
      have hpop := pop_of_ring hring
      refine ⟨_, call_pop hpop, ⟨hring.removeFirst, ?_, h.payload⟩, ?_⟩
      · simp [h.returned]
      · rw [Tasks.answer, hpop]
        exact leaves_pop hring

theorem exec_call_follows (q : QueueId) (s : Tasks β) (calls : List (Call Nat))
    (hfresh : Along Fifo.State.step Fresh {} calls) :
    ∃ t f, exec (Tasks.call q) s (.init :: calls) = some t ∧
      exec Fifo.State.step {} calls = some f ∧ Follows q s t f := by
  have htotal : ∀ (f : Fifo.State Nat) c, ∃ f', f.step c = some f' := by
    intro f c
    cases c <;> exact ⟨_, rfl⟩
  obtain ⟨f, hf⟩ := exec_total htotal {} calls
  have hinit : Follows q s { s with memory := xenQueueInit s.memory (.head q) } {} :=
    ⟨close_ring s.memory (.head q), (List.append_nil _).symm, rfl⟩
  have hrun : ∃ t, exec (Tasks.call q) { s with memory := xenQueueInit s.memory (.head q) } calls
      = some t ∧ Follows q s t f := by
    refine exec_follows (R := fun f t => Follows q s t f) ?_ hinit hfresh hf
    intro f c f' t hR hC hstep
    obtain ⟨t', ht', hfollows, -⟩ := hR.step hC hstep
    exact ⟨t', ht', hfollows⟩
  obtain ⟨t, ht, hfollows⟩ := hrun
  exact ⟨t, f, ht, hf, hfollows⟩

/-! ## The queue as a sequence -/

theorem Follows.isEmpty_iff {s₀ s : Tasks β} {f : Fifo.State Nat} (h : Follows q s₀ s f) :
    xenQueueIsEmpty s.memory (.head q) = true ↔ f.waiting = [] := by
  rw [xenQueueIsEmpty, decide_eq_true_iff, h.ring.next_eq_iff, List.map_eq_nil_iff]

theorem Follows.front_eq_none_iff {s₀ s : Tasks β} {f : Fifo.State Nat} (h : Follows q s₀ s f) :
    xenQueueFront s.memory (.head q) = none ↔ f.waiting = [] := by
  rw [← h.isEmpty_iff, xenQueueFront]
  cases xenQueueIsEmpty s.memory (.head q) <;> simp

theorem Follows.pop_eq_none_iff {s₀ s : Tasks β} {f : Fifo.State Nat} (h : Follows q s₀ s f) :
    (xenQueuePop s.memory (.head q)).2 = none ↔ f.waiting = [] := by
  have hring := h.ring
  cases hw : f.waiting with
  | nil =>
    rw [hw] at hring
    simp [pop_of_empty hring]
  | cons n rest =>
    rw [hw, List.map_cons] at hring
    simp [pop_of_ring hring]

/-- Whatever calls follow an init, if nothing is pushed that waits already: the links are one ring
through the head, the pops answer in the order of the pushes, NULL and empty mean that all that
was pushed has been popped, and each further call leaves the other links and every payload. -/
theorem xenQueue_refines_fifo (q : QueueId) (s : Tasks β) (calls : List (Call Nat))
    (hfresh : Along Fifo.State.step Fresh {} calls) :
    ∃ t f, exec (Tasks.call q) s (.init :: calls) = some t ∧
      exec Fifo.State.step {} calls = some f ∧ Follows q s t f ∧ f.pushed = f.popped ++ f.waiting ∧
      (∀ x ∈ nodes q f.waiting, t.memory.prev (t.memory.next x) = x ∧
        t.memory.next (t.memory.prev x) = x) ∧
      ((xenQueuePop t.memory (.head q)).2 = none ↔ f.popped = f.pushed) ∧
      (xenQueueFront t.memory (.head q) = none ↔ f.popped = f.pushed) ∧
      (xenQueueIsEmpty t.memory (.head q) = true ↔ f.popped = f.pushed) ∧
      ∀ c, Fresh f c → ∃ t' f', t.call q c = some t' ∧ f.step c = some f' ∧ Follows q s t' f' ∧
        Leaves q t.memory t'.memory f'.waiting (t.answer q c) := by
  obtain ⟨t, f, ht, hf, h⟩ := exec_call_follows q s calls hfresh
  have hconserved := Fifo.State.conserved hf
  refine ⟨t, f, ht, hf, h, hconserved, ?_, ?_, ?_, ?_, ?_⟩
  · intro x hx
    exact ⟨h.ring.prev_next hx, h.ring.next_prev hx⟩
  · rw [h.pop_eq_none_iff, hconserved.waiting_eq_nil]
  · rw [h.front_eq_none_iff, hconserved.waiting_eq_nil]
  · rw [h.isEmpty_iff, hconserved.waiting_eq_nil]
  · intro c hc
    obtain ⟨f', hf'⟩ : ∃ f', f.step c = some f' := by cases c <;> exact ⟨_, rfl⟩
    obtain ⟨t', ht', hfollows, hleaves⟩ := h.step hc hf'
    exact ⟨t', f', ht', hf', hfollows, hleaves⟩

end

/-- The links before the queue is initialised may be any; here they all point to one head. -/
def unlinked : Tasks Unit where
  memory := ⟨fun _ => .head .native, fun _ => .head .native⟩
  payload := fun _ => ()

theorem xenQueue_refines_fifo_pushed_again :
    ∃ t, exec (Tasks.call .native) unlinked [.init, .push 0, .push 1, .pop, .push 0] = some t ∧
      t.returned = [some (.element 0)] ∧ Ring t.memory (.head .native) [.element 1, .element 0] := by
  obtain ⟨t, f, ht, hf, h, -⟩ := xenQueue_refines_fifo .native unlinked
    [.push 0, .push 1, .pop, .push 0] (by decide)
  obtain rfl := Option.some.inj hf
  exact ⟨t, ht, h.returned, h.ring⟩

/-! ## The length of a queue -/

section
variable {β : Type} {q : QueueId} {m : Memory} {head element : Ptr}

theorem lengthLoop_of_ne (h : m.next element ≠ head) (fuel : Nat) (length : Int) :
    lengthLoop m head element fuel length = none := by
  induction fuel generalizing length with
  | zero => rfl
  | succ fuel ih =>
    rw [lengthLoop, if_pos h]
    cases IntType.fit .signed (length + 1) with
    | none => rfl
    | some length => exact ih length

theorem xenQueueLength_of_empty (h : Ring m (.head q) []) (fuel : Nat) :
    xenQueueLength fuel m (.head q) = some 0 := by
  have hnext : m.next (.head q) = .head q := h.next_eq_iff.mpr rfl
  simp [xenQueueLength, xenQueueIsEmpty, hnext]

theorem xenQueueLength_of_ring {n : Nat} {rest : List Nat}
    (h : Ring m (.head q) (.element n :: rest.map .element)) (fuel : Nat) :
    xenQueueLength fuel m (.head q) = lengthLoop m (.head q) (.element n) fuel 1 := by
  have hnext : m.next (.head q) = .element n := h.path.1
  simp [xenQueueLength, xenQueueFront, xenQueueIsEmpty, hnext]

/-- The function returns what waits exactly for at most one element; with two or more its loop
never ends. -/
theorem exists_xenQueueLength_iff {waiting : List Nat}
    (h : Ring m (.head q) (waiting.map .element)) :
    (∃ fuel, xenQueueLength fuel m (.head q) = some (waiting.length : Int))
      ↔ waiting.length ≤ 1 := by
  cases waiting with
  | nil => exact iff_of_true ⟨0, xenQueueLength_of_empty h 0⟩ (Nat.zero_le 1)
  | cons n rest =>
    have hring := h
    rw [List.map_cons] at hring
    obtain ⟨-, -, hpath⟩ := hring.path
    cases rest with
    | nil =>
      have hnext : m.next (.element n) = .head q := hpath.1
      refine iff_of_true ⟨1, ?_⟩ (Nat.le_refl 1)
      rw [xenQueueLength_of_ring hring, lengthLoop, if_neg (not_not.mpr hnext)]
      rfl
    | cons k rest =>
      have hnext : m.next (.element n) = .element k := hpath.1
      apply iff_of_false
      · rintro ⟨fuel, hfuel⟩
        rw [xenQueueLength_of_ring hring, lengthLoop_of_ne] at hfuel
        · cases hfuel
        · rw [hnext]
          exact Ptr.noConfusion
      · simp

/-- Whatever calls led to the queue, its length is returned if and only if at most one pushed
element has not been popped. -/
theorem xenQueueLength_returns_iff (q : QueueId) (s : Tasks β) (calls : List (Call Nat))
    (hfresh : Along Fifo.State.step Fresh {} calls) :
    ∃ t f, exec (Tasks.call q) s (.init :: calls) = some t ∧
      exec Fifo.State.step {} calls = some f ∧ f.pushed = f.popped ++ f.waiting ∧
      ((∃ fuel, xenQueueLength fuel t.memory (.head q) = some (f.waiting.length : Int))
        ↔ f.waiting.length ≤ 1) := by
  obtain ⟨t, f, ht, hf, h⟩ := exec_call_follows q s calls hfresh
  exact ⟨t, f, ht, hf, Fifo.State.conserved hf, exists_xenQueueLength_iff h.ring⟩

end

theorem xenQueueLength_returns_iff_one_push :
    ∃ t f, exec (Tasks.call .native) unlinked [.init, .push 0] = some t ∧
      exec Fifo.State.step {} [.push 0] = some f ∧ f.pushed = f.popped ++ f.waiting ∧
      ((∃ fuel, xenQueueLength fuel t.memory (.head .native) = some (f.waiting.length : Int))
        ↔ f.waiting.length ≤ 1) :=
  xenQueueLength_returns_iff .native unlinked [.push 0] (by decide)

/-- Two elements are enough: no number of rounds gives a result. -/
theorem xenQueueLength_never_returns :
    ∃ t, exec (Tasks.call .native) unlinked [.init, .push 0, .push 1] = some t ∧
      ∀ fuel, xenQueueLength fuel t.memory (.head .native) = none := by
  obtain ⟨t, f, ht, hf, h⟩ := exec_call_follows .native unlinked
    [.push 0, .push 1] (by decide)
  have hring := h.ring
  have hw : f.waiting = [0, 1] := by
    obtain rfl := Option.some.inj hf
    rfl
  rw [hw] at hring
  refine ⟨t, ht, fun fuel => ?_⟩
  have hnext : t.memory.next (.element 0) = .element 1 := hring.path.2.2.1
  have hloop : xenQueueLength fuel t.memory (.head .native)
      = lengthLoop t.memory (.head .native) (.element 0) fuel 1 := xenQueueLength_of_ring hring fuel
  rw [hloop, lengthLoop_of_ne]
  rw [hnext]
  exact Ptr.noConfusion

end PdmaXen.NetDom0.Objects
