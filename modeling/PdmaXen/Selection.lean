import Mathlib.Data.Int.CardIntervalMod
import Mathlib.Data.Nat.Nth
import Mathlib.Data.Nat.Periodic

/-!
# Walks round a ring of cells

A walk visits the cells of a ring one after the other, as often as it has to, and passes
over the blank ones. Its `k`-th visit is to the cell of the `k`-th number that does not
fall on a blank.
-/

namespace PdmaXen.Selection
set_option autoImplicit false

/-- The cell after `i`; the first one comes after the last. -/
def next (N i : Nat) : Nat := if i + 1 = N then 0 else i + 1

/-- The first cell from `i` on that is not blank, when it comes soon enough. -/
def skip (blank : Nat → Bool) (N : Nat) : Nat → Nat → Option Nat
  | 0, _ => none
  | fuel + 1, i => if blank i then skip blank N fuel (next N i) else some i

/-- The cell after the last visit, and what the visits have made of `s`. -/
def walk {σ : Type} (blank : Nat → Bool) (N : Nat) (body : Nat → Nat → σ → σ) (start : Nat) (s : σ) :
    Nat → Option (Nat × σ)
  | 0 => some (start, s)
  | k + 1 => do
    let (i, s) ← walk blank N body start s k
    let j ← skip blank N N i
    return (next N j, body k j s)

def Live (blank : Nat → Bool) (N start t : Nat) : Prop := blank ((start + t) % N) = false

instance (blank : Nat → Bool) (N start : Nat) : DecidablePred (Live blank N start) :=
  fun _ => inferInstanceAs (Decidable (_ = false))

/-- The cells that are not blank. -/
def liveCount (blank : Nat → Bool) (N : Nat) : Nat := Nat.count (fun i => blank i = false) N

noncomputable def pick (blank : Nat → Bool) (N start k : Nat) : Nat :=
  (start + Nat.nth (Live blank N start) k) % N

section Walk
variable {blank : Nat → Bool} {N start : Nat}

theorem next_mod (hN : 0 < N) (x : Nat) : next N (x % N) = (x + 1) % N := by
  have hlt := Nat.mod_lt x hN
  have hmod := Nat.mod_add_mod x N 1
  rw [next]
  split
  · rename_i hlast
    rw [← hmod, hlast, Nat.mod_self]
  · rename_i hnot
    have hin : x % N + 1 < N := by omega
    rw [← hmod, Nat.mod_eq_of_lt hin]

/-- From any cell some way round the ring of less than a turn leads to `i`. -/
theorem exists_way (s : Nat) {i : Nat} (hi : i < N) : ∃ d < N, (s + d) % N = i := by
  have hlt := Nat.mod_lt s (by omega : 0 < N)
  have hs : ∀ d, (s + d) % N = (s % N + d) % N := fun d => (Nat.mod_add_mod s N d).symm
  rcases Nat.lt_or_ge i (s % N) with h | h
  · refine ⟨i + N - s % N, by omega, ?_⟩
    rw [hs, show s % N + (i + N - s % N) = i + N by omega, Nat.add_mod_right, Nat.mod_eq_of_lt hi]
  · refine ⟨i - s % N, by omega, ?_⟩
    rw [hs, Nat.add_sub_cancel' h, Nat.mod_eq_of_lt hi]

theorem exists_live (start : Nat) (hlive : ∃ i < N, blank i = false) (t : Nat) :
    ∃ u, t ≤ u ∧ u < t + N ∧ Live blank N start u := by
  obtain ⟨i, hi, hblank⟩ := hlive
  obtain ⟨d, hd, hway⟩ := exists_way (start + t) hi
  refine ⟨t + d, by omega, by omega, ?_⟩
  rw [Live, ← Nat.add_assoc, hway, hblank]

theorem live_infinite (start : Nat) (hlive : ∃ i < N, blank i = false) :
    (Set.ofPred (Live blank N start)).Infinite := by
  apply Set.infinite_of_forall_exists_gt
  intro t
  obtain ⟨u, hu, -, hl⟩ := exists_live start hlive (t + 1)
  exact ⟨u, hl, hu⟩

/-- Skipping from the cell of `t` ends at the cell of the next live number. -/
theorem skip_eq (hN : 0 < N) {t u fuel : Nat} (htu : t ≤ u) (hfuel : u < t + fuel)
    (hu : Live blank N start u) (hbetween : ∀ v, t ≤ v → v < u → ¬ Live blank N start v) :
    skip blank N fuel ((start + t) % N) = some ((start + u) % N) := by
  induction fuel generalizing t with
  | zero => omega
  | succ fuel ih =>
    rw [skip]
    rcases Nat.eq_or_lt_of_le htu with rfl | hlt
    · rw [if_neg]
      rw [hu]
      exact Bool.false_ne_true
    · have hblank : blank ((start + t) % N) = true := by
        have hnot := hbetween t le_rfl hlt
        unfold Live at hnot
        simpa using hnot
      rw [if_pos hblank, next_mod hN, Nat.add_assoc]
      exact ih hlt (by omega) fun v hv => hbetween v (by omega)

noncomputable def after (blank : Nat → Bool) (N start : Nat) : Nat → Nat
  | 0 => 0
  | n + 1 => Nat.nth (Live blank N start) n + 1

theorem skip_after (hlive : ∃ i < N, blank i = false) (n : Nat) :
    skip blank N N ((start + after blank N start n) % N) = some (pick blank N start n) := by
  have hinf := live_infinite start hlive
  have hN : 0 < N := by
    obtain ⟨i, hi, -⟩ := hlive
    omega
  have hcount : Nat.count (Live blank N start) (after blank N start n) = n := by
    cases n with
    | zero => exact Nat.count_zero _
    | succ n => exact Nat.count_nth_succ_of_infinite hinf n
  have hnth : Nat.nth (Live blank N start) n =
      sInf {i | Live blank N start i ∧ after blank N start n ≤ i} := by
    rw [← Nat.nth_count_eq_sInf, hcount]
  obtain ⟨u, hge, hlt, hu⟩ := exists_live start hlive (after blank N start n)
  have hmem : u ∈ {i | Live blank N start i ∧ after blank N start n ≤ i} := ⟨hu, hge⟩
  have hleast := Nat.sInf_mem ⟨u, hmem⟩
  have hle := Nat.sInf_le hmem
  rw [← hnth] at hleast hle
  apply skip_eq hN hleast.2 (by omega) hleast.1
  intro v hv hvlt hlv
  have hle' := Nat.sInf_le (show v ∈ {i | Live blank N start i ∧ after blank N start n ≤ i} from
    ⟨hlv, hv⟩)
  rw [← hnth] at hle'
  omega

theorem walk_eq {σ : Type} (hlive : ∃ i < N, blank i = false) (hstart : start < N)
    (body : Nat → Nat → σ → σ) (s : σ) (n : Nat) :
    walk blank N body start s n = some ((start + after blank N start n) % N,
      (List.range n).foldl (fun s k => body k (pick blank N start k) s) s) := by
  induction n with
  | zero =>
    rw [walk, after, Nat.add_zero, Nat.mod_eq_of_lt hstart]
    rfl
  | succ n ih =>
    rw [walk, ih]
    simp only [Option.bind_eq_bind, Option.bind_some, skip_after hlive, Option.pure_def]
    rw [pick, next_mod (by omega), List.range_succ, List.foldl_append]
    rfl

theorem pick_lt (hN : 0 < N) (k : Nat) : pick blank N start k < N := Nat.mod_lt _ hN

theorem blank_pick (start : Nat) (hlive : ∃ i < N, blank i = false) (k : Nat) :
    blank (pick blank N start k) = false :=
  Nat.nth_mem_of_infinite (live_infinite start hlive) k

/-! ### Turns of the ring -/

theorem live_add_turn (t : Nat) : Live blank N start (N + t) ↔ Live blank N start t := by
  unfold Live
  rw [Nat.add_left_comm, Nat.add_mod_left]

/-- A turn passes every cell once, wherever it starts. -/
theorem count_turn : Nat.count (Live blank N start) N = liveCount blank N := by
  have hturn : Nat.count (fun t => blank (t % N) = false) N = liveCount blank N := by
    apply le_antisymm
    · apply Nat.count_mono_left
      intro i hi h
      rwa [Nat.mod_eq_of_lt hi] at h
    · apply Nat.count_mono_left
      intro i hi h
      rwa [Nat.mod_eq_of_lt hi]
  have hlast := Nat.count_add (fun t => blank (t % N) = false) start N
  have hfirst := Nat.count_add (fun t => blank (t % N) = false) N start
  simp only [Nat.add_mod_left] at hfirst
  rw [Nat.add_comm N start, hlast] at hfirst
  have hlive : Nat.count (Live blank N start) N =
      Nat.count (fun t => blank ((start + t) % N) = false) N := rfl
  omega

theorem liveCount_pos (hlive : ∃ i < N, blank i = false) : 0 < liveCount blank N := by
  apply Nat.pos_of_ne_zero
  apply Nat.count_ne_iff_exists.mpr
  exact hlive

theorem nth_add_turn (hlive : ∃ i < N, blank i = false) (k : Nat) :
    Nat.nth (Live blank N start) (k + liveCount blank N) = N + Nat.nth (Live blank N start) k := by
  have hinf := live_infinite start hlive
  have hmem : Live blank N start (N + Nat.nth (Live blank N start) k) :=
    (live_add_turn _).mpr (Nat.nth_mem_of_infinite hinf k)
  have hcount : Nat.count (Live blank N start) (N + Nat.nth (Live blank N start) k) =
      k + liveCount blank N := by
    have hadd := Nat.count_add (Live blank N start) N (Nat.nth (Live blank N start) k)
    simp only [live_add_turn] at hadd
    rw [hadd, count_turn, Nat.count_nth_of_infinite hinf, Nat.add_comm]
  rw [← hcount, Nat.nth_count hmem]

theorem pick_mod (hlive : ∃ i < N, blank i = false) (k : Nat) :
    pick blank N start (k % liveCount blank N) = pick blank N start k := by
  apply Function.Periodic.map_mod_nat
  intro k
  rw [pick, nth_add_turn hlive, Nat.add_left_comm, Nat.add_mod_left, pick]

theorem mod_cancel_left {a b s : Nat} (ha : a < N) (hb : b < N) (h : (s + a) % N = (s + b) % N) :
    a = b := by
  have hab : a ≡ b [MOD N] := Nat.ModEq.add_left_cancel' s h
  rwa [Nat.ModEq, Nat.mod_eq_of_lt ha, Nat.mod_eq_of_lt hb] at hab

/-- Every cell that is not blank is visited once in a turn. -/
theorem pick_bijOn (start : Nat) (hlive : ∃ i < N, blank i = false) : Set.BijOn (pick blank N start)
    (Set.Iio (liveCount blank N)) {i | i < N ∧ blank i = false} := by
  have hN : 0 < N := by
    obtain ⟨i, hi, -⟩ := hlive
    omega
  have hlt : ∀ k < liveCount blank N, Nat.nth (Live blank N start) k < N := by
    intro k hk
    apply Nat.nth_lt_of_lt_count
    rwa [count_turn]
  refine ⟨fun k _ => ⟨pick_lt hN k, blank_pick start hlive k⟩, ?_, ?_⟩
  · intro k hk k' hk' h
    have hnth := mod_cancel_left (hlt k hk) (hlt k' hk') h
    exact Nat.nth_injective (live_infinite start hlive) hnth
  · rintro i ⟨hi, hblank⟩
    obtain ⟨d, hd, hway⟩ := exists_way start hi
    have hd' : Live blank N start d := by rw [Live, hway, hblank]
    refine ⟨Nat.count (Live blank N start) d, ?_, ?_⟩
    · have hmono := Nat.count_strict_mono hd' hd
      rwa [count_turn] at hmono
    · rw [pick, Nat.nth_count hd', hway]

theorem pick_eq_iff (hlive : ∃ i < N, blank i = false) (k k' : Nat) :
    pick blank N start k = pick blank N start k' ↔ k ≡ k' [MOD liveCount blank N] := by
  have hpos := liveCount_pos hlive
  rw [← pick_mod hlive k, ← pick_mod hlive k']
  exact (pick_bijOn start hlive).injOn.eq_iff (Nat.mod_lt k hpos) (Nat.mod_lt k' hpos)

end Walk

/-- Only the ring itself matters. -/
theorem pick_congr {blank blank' : Nat → Bool} {N start : Nat} (hN : 0 < N)
    (h : ∀ i < N, blank i = blank' i) : pick blank N start = pick blank' N start := by
  have hlive : Live blank N start = Live blank' N start := by
    funext t
    unfold Live
    rw [h _ (Nat.mod_lt _ hN)]
  funext k
  rw [pick, pick, hlive]

/-! ## What the visits leave in a cell -/

/-- A loop that fills a stretch of cells. -/
theorem foldl_update_stretch {α : Type} (offset : Nat) (f : Nat → α) (e : Nat → α) (n i : Nat) :
    (List.range n).foldl (fun e k => Function.update e (offset + k) (f k)) e i =
      if offset ≤ i ∧ i < offset + n then f (i - offset) else e i := by
  induction n with
  | zero => exact (if_neg (by omega)).symm
  | succ n ih =>
    rw [List.range_succ, List.foldl_append, List.foldl_cons, List.foldl_nil]
    rcases Nat.lt_trichotomy i (offset + n) with hlt | rfl | hgt
    · rw [Function.update_of_ne hlt.ne, ih]
      exact if_congr (by omega) rfl rfl
    · rw [Function.update_self, if_pos (by omega), Nat.add_sub_cancel_left]
    · rw [Function.update_of_ne hgt.ne', ih, if_neg (by omega), if_neg (by omega)]

def visits (at_ : Nat → Nat) (n j : Nat) : List Nat := (List.range n).filter fun k => at_ k = j

/-- A loop that changes the cells it visits changes each by its own visits. -/
theorem foldl_update_visits {α : Type} (at_ : Nat → Nat) (f : α → Nat → α) (w : Nat → α) (n j : Nat) :
    (List.range n).foldl (fun w k => Function.update w (at_ k) (f (w (at_ k)) k)) w j =
      (visits at_ n j).foldl f (w j) := by
  induction n with
  | zero => rfl
  | succ n ih =>
    rw [visits, List.range_succ, List.foldl_append, List.filter_append, List.foldl_append,
      List.foldl_cons, List.foldl_nil]
    by_cases h : at_ n = j
    · rw [List.filter_cons_of_pos (by simpa using h), List.filter_nil, List.foldl_cons,
        List.foldl_nil, ← h, Function.update_self, h, ih, visits]
    · rw [List.filter_cons_of_neg (by simpa using h), List.filter_nil, List.foldl_nil,
        Function.update_of_ne (Ne.symm h), ih, visits]

/-- The visits are shared out evenly: each cell that is not blank has its `n / L` of them, or one
more. -/
theorem visits_length {blank : Nat → Bool} {N : Nat} (start : Nat)
    (hlive : ∃ i < N, blank i = false) {j : Nat} (hj : j < N) (hblank : blank j = false) (n : Nat) :
    ∃ v < liveCount blank N, (visits (pick blank N start) n j).length =
      n / liveCount blank N + if v < n % liveCount blank N then 1 else 0 := by
  obtain ⟨v, hv, rfl⟩ := (pick_bijOn start hlive).surjOn ⟨hj, hblank⟩
  have hlength : (visits (pick blank N start) n (pick blank N start v)).length =
      Nat.count (· ≡ v [MOD liveCount blank N]) n := by
    simp only [visits, Nat.count, List.countP_eq_length_filter, pick_eq_iff hlive]
  refine ⟨v, hv, ?_⟩
  rw [hlength, Nat.count_modEq_card n (liveCount_pos hlive), Nat.mod_eq_of_lt hv]

end PdmaXen.Selection
