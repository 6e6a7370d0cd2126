import Mathlib.Logic.Function.Basic
import Mathlib.Algebra.Order.Ring.Nat
import Mathlib.Data.List.Basic
import Mathlib.Data.List.GetD
import Mathlib.Data.List.Induction
import Mathlib.Tactic.Common

/-!
# Stores to distinct places

Loops that make a few stores in every step, none of them twice to one place, and matrices
that are written by rows and read by columns.
-/

namespace PdmaXen.Scatter
set_option autoImplicit false

section Stores
variable {ι α : Type} [DecidableEq ι] (addr : Nat → Nat → ι) (val : Nat → Nat → α) (m : Nat)

/-- Step `k` of the loop: its stores in their order. -/
def storeStep (mem : ι → α) (k : Nat) : ι → α :=
  (List.range m).foldl (fun mem o => Function.update mem (addr k o) (val k o)) mem

def stores (n : Nat) (mem : ι → α) : ι → α := (List.range n).foldl (storeStep addr val m) mem

/-- No place is stored to twice in the first `n` steps. -/
def Distinct (n : Nat) : Prop :=
  ∀ k < n, ∀ o < m, ∀ k' < n, ∀ o' < m, addr k o = addr k' o' → k = k' ∧ o = o'

variable {addr val m}

theorem storeStep_other {mem : ι → α} {k : Nat} {a : ι} (h : ∀ o < m, a ≠ addr k o) :
    storeStep addr val m mem k a = mem a := by
  induction m with
  | zero => rfl
  | succ m ih =>
    rw [storeStep, List.range_succ, List.foldl_append, List.foldl_cons, List.foldl_nil,
      Function.update_of_ne (h m (by omega))]
    exact ih fun o ho => h o (by omega)

theorem storeStep_cell {mem : ι → α} {k o : Nat}
    (hinj : ∀ o < m, ∀ o' < m, addr k o = addr k o' → o = o') (ho : o < m) :
    storeStep addr val m mem k (addr k o) = val k o := by
  induction m with
  | zero => omega
  | succ m ih =>
    rw [storeStep, List.range_succ, List.foldl_append, List.foldl_cons, List.foldl_nil]
    by_cases heq : o = m
    · rw [heq, Function.update_self]
    · rw [Function.update_of_ne fun hsame => heq (hinj o ho m (by omega) hsame)]
      exact ih (fun a ha b hb => hinj a (by omega) b (by omega)) (by omega)

theorem stores_succ (n : Nat) (mem : ι → α) :
    stores addr val m (n + 1) mem = storeStep addr val m (stores addr val m n mem) n := by
  rw [stores, List.range_succ, List.foldl_append]
  rfl

theorem stores_other {n : Nat} {mem : ι → α} {a : ι} (h : ∀ k < n, ∀ o < m, a ≠ addr k o) :
    stores addr val m n mem a = mem a := by
  induction n with
  | zero => rfl
  | succ n ih =>
    rw [stores_succ, storeStep_other (h n (by omega))]
    exact ih fun k hk => h k (by omega)

theorem stores_cell {n : Nat} {mem : ι → α} (hinj : Distinct addr m n) {k o : Nat} (hk : k < n)
    (ho : o < m) : stores addr val m n mem (addr k o) = val k o := by
  induction n with
  | zero => omega
  | succ n ih =>
    rw [stores_succ]
    by_cases heq : k = n
    · subst heq
      exact storeStep_cell (fun a ha b hb hsame => (hinj k hk a ha k hk b hb hsame).2) ho
    · rw [storeStep_other]
      · exact ih (fun a ha b hb c hc d hd => hinj a (by omega) b hb c (by omega) d hd) (by omega)
      · intro o' ho' hsame
        exact heq (hinj k hk o ho n (by omega) o' ho' hsame).1

end Stores

/-! ## Stores of what belongs to a place

Loops inside loops: whatever the order is, a place that is stored to at all holds something of its
own at the end. -/

/-- The stores of `f` go to the places in `owns`, and leave there what has the property `P` of the
place. -/
def StoresAt {ι α : Type} (f : (ι → α) → ι → α) (owns : ι → Prop) (P : ι → α → Prop) : Prop :=
  ∀ mem i, (owns i → P i (f mem i)) ∧ (¬ owns i → f mem i = mem i)

theorem StoresAt.update {ι α : Type} [DecidableEq ι] {P : ι → α → Prop} {a : ι} {v : α}
    (h : P a v) : StoresAt (fun mem => Function.update mem a v) (fun i => i = a) P := by
  intro mem i
  constructor
  · rintro rfl
    simp only [Function.update_self]
    exact h
  · intro hne
    exact Function.update_of_ne hne _ _

theorem StoresAt.foldl {ι α β : Type} {f : (ι → α) → β → ι → α} {owns : β → ι → Prop}
    {P : ι → α → Prop} {l : List β} (h : ∀ b ∈ l, StoresAt (fun mem => f mem b) (owns b) P) :
    StoresAt (fun mem => l.foldl f mem) (fun i => ∃ b ∈ l, owns b i) P := by
  induction l with
  | nil => exact fun mem i => ⟨fun hex => by simp at hex, fun _ => rfl⟩
  | cons b l ih =>
    intro mem i
    have hhead := h b List.mem_cons_self mem i
    have htail := ih (fun b' hb' => h b' (List.mem_cons_of_mem b hb')) (f mem b) i
    constructor
    · rintro ⟨b', hb', howns⟩
      by_cases hlater : ∃ b ∈ l, owns b i
      · exact htail.1 hlater
      · have hb : b' = b := by
          rcases List.mem_cons.mp hb' with heq | hmem
          · exact heq
          · exact absurd ⟨b', hmem, howns⟩ hlater
        have hsame : (b :: l).foldl f mem i = f mem b i := htail.2 hlater
        simp only [hsame]
        exact hhead.1 (hb ▸ howns)
    · intro hnone
      have hhere : ¬ owns b i := fun howns => hnone ⟨b, List.mem_cons_self, howns⟩
      have hlater : ¬ ∃ b ∈ l, owns b i :=
        fun ⟨b', hb', howns⟩ => hnone ⟨b', List.mem_cons_of_mem b hb', howns⟩
      exact (htail.2 hlater).trans (hhead.2 hhere)

theorem StoresAt.congr {ι α : Type} {f : (ι → α) → ι → α} {owns owns' : ι → Prop} {P : ι → α → Prop}
    (h : StoresAt f owns P) (hiff : ∀ i, owns' i ↔ owns i) : StoresAt f owns' P := by
  intro mem i
  rw [hiff]
  exact h mem i

/-- A loop over a list that counts the elements it uses. -/
theorem foldl_counted {σ β : Type} (p : β → Bool) (body : Nat → β → σ → σ) (d : β) (l : List β) (s : σ) :
    l.foldl (fun (st : Nat × σ) x => if p x then (st.1 + 1, body st.1 x st.2) else st) (0, s) =
      ((l.filter p).length, (List.range (l.filter p).length).foldl
        (fun s k => body k ((l.filter p).getD k d) s) s) := by
  induction l using List.reverseRecOn with
  | nil => rfl
  | append_singleton l x ih =>
    rw [List.foldl_append, List.foldl_cons, List.foldl_nil, ih, List.filter_append]
    by_cases h : p x
    · have hlast : [x].filter p = [x] := List.filter_cons_of_pos h
      have hsame : ∀ k ∈ List.range (l.filter p).length,
          (l.filter p ++ [x]).getD k d = (l.filter p).getD k d := by
        intro k hk
        exact List.getD_append _ _ _ _ (List.mem_range.mp hk)
      have hnew : (l.filter p ++ [x]).getD (l.filter p).length d = x := by
        rw [List.getD_append_right _ _ _ _ le_rfl, Nat.sub_self]
        rfl
      rw [if_pos h, hlast, List.length_append, List.length_singleton, List.range_succ, List.foldl_append,
        List.foldl_cons, List.foldl_nil, hnew]
      congr 2
      apply List.foldl_ext
      intro s k hk
      rw [hsame k hk]
    · rw [if_neg h, List.filter_cons_of_neg h, List.filter_nil, List.append_nil]

/-! ## Matrices -/

/-- The place of the element read in turn `k` from `R` rows of `C` columns, the columns in the order
`P`. -/
def place (P : Nat → Nat) (C R k : Nat) : Nat := P (k / R) + C * (k % R)

section Place
variable {P : Nat → Nat} {C R : Nat}

theorem place_lt (hP : ∀ c < C, P c < C) {k : Nat} (hk : k < C * R) : place P C R k < C * R := by
  have hR : 0 < R := Nat.pos_of_ne_zero fun h => by simp [h] at hk
  have hcol := hP (k / R) (Nat.div_lt_of_lt_mul (Nat.mul_comm C R ▸ hk))
  have hrow := Nat.mod_lt k hR
  have hmul : C * (k % R + 1) ≤ C * R := Nat.mul_le_mul_left C hrow
  rw [Nat.mul_succ] at hmul
  unfold place
  omega

theorem place_injOn (hP : ∀ c < C, P c < C) (hinj : ∀ c < C, ∀ c' < C, P c = P c' → c = c')
    {k k' : Nat} (hk : k < C * R) (hk' : k' < C * R) (h : place P C R k = place P C R k') :
    k = k' := by
  have hR : 0 < R := Nat.pos_of_ne_zero fun h => by simp [h] at hk
  have hcol : k / R < C := Nat.div_lt_of_lt_mul (Nat.mul_comm C R ▸ hk)
  have hcol' : k' / R < C := Nat.div_lt_of_lt_mul (Nat.mul_comm C R ▸ hk')
  have hC : 0 < C := lt_of_le_of_lt (Nat.zero_le _) hcol
  have hmod : P (k / R) = P (k' / R) := by
    have hsame := congrArg (· % C) h
    simpa [place, Nat.mod_eq_of_lt (hP _ hcol), Nat.mod_eq_of_lt (hP _ hcol')] using hsame
  have hrow : k % R = k' % R := by
    unfold place at h
    rw [hmod] at h
    exact Nat.eq_of_mul_eq_mul_left hC (Nat.add_left_cancel h)
  rw [← Nat.div_add_mod k R, ← Nat.div_add_mod k' R, hinj _ hcol _ hcol' hmod, hrow]

end Place

end PdmaXen.Scatter
