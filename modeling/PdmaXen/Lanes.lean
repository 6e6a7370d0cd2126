import Mathlib.Data.Nat.Notation
import Mathlib.Order.MinMax
import Mathlib.Tactic.Common

/-!
# Registers of sixteen octets

The instructions of SSE2 that work on sixteen unsigned octets at once, and what they compute
on the values of the octets.
-/

namespace PdmaXen.Lanes
set_option autoImplicit false

abbrev Reg := Fin 16 → BitVec 8

def value (x : Reg) (i : Fin 16) : Nat := (x i).toNat

def addsEpu8 (x y : Reg) : Reg := fun i => BitVec.ofNat 8 (min 255 (value x i + value y i))

def subsEpu8 (x y : Reg) : Reg := fun i => BitVec.ofNat 8 (value x i - value y i)

def maxEpu8 (x y : Reg) : Reg := fun i => if value x i ≤ value y i then y i else x i

def minEpu8 (x y : Reg) : Reg := fun i => if value x i ≤ value y i then x i else y i

def cmpeqEpi8 (x y : Reg) : Reg := fun i => if x i = y i then 0xff else 0

/-- The lane that an octet of the lower or the upper half comes from. -/
def halfLane (upper : Bool) (i : Fin 16) : Fin 16 := ⟨i / 2 + if upper then 8 else 0, by split <;> omega⟩

def unpackloEpi8 (x y : Reg) : Reg := fun i =>
  if i.val % 2 = 0 then x (halfLane false i) else y (halfLane false i)

def unpackhiEpi8 (x y : Reg) : Reg := fun i =>
  if i.val % 2 = 0 then x (halfLane true i) else y (halfLane true i)

theorem value_lt (x : Reg) (i : Fin 16) : value x i < 256 := (x i).isLt

theorem value_addsEpu8 {x y : Reg} {i : Fin 16} (h : value x i + value y i ≤ 255) :
    value (addsEpu8 x y) i = value x i + value y i := by
  rw [value, addsEpu8, BitVec.toNat_ofNat, min_eq_right h, Nat.mod_eq_of_lt (by omega)]

@[simp]
theorem value_subsEpu8 (x y : Reg) (i : Fin 16) : value (subsEpu8 x y) i = value x i - value y i := by
  have hlt := value_lt x i
  rw [value, subsEpu8, BitVec.toNat_ofNat, Nat.mod_eq_of_lt (by omega)]

@[simp]
theorem value_maxEpu8 (x y : Reg) (i : Fin 16) : value (maxEpu8 x y) i = max (value x i) (value y i) := by
  by_cases h : value x i ≤ value y i
  · rw [max_eq_right h, value, maxEpu8, if_pos h]
    rfl
  · rw [max_eq_left (le_of_not_ge h), value, maxEpu8, if_neg h]
    rfl

@[simp]
theorem value_minEpu8 (x y : Reg) (i : Fin 16) : value (minEpu8 x y) i = min (value x i) (value y i) := by
  by_cases h : value x i ≤ value y i
  · rw [min_eq_left h, value, minEpu8, if_pos h]
    rfl
  · rw [min_eq_right (le_of_not_ge h), value, minEpu8, if_neg h]
    rfl

theorem cmpeqEpi8_maxEpu8 (x y : Reg) (i : Fin 16) :
    cmpeqEpi8 (maxEpu8 x y) y i = 0 ↔ ¬ value x i ≤ value y i := by
  rw [cmpeqEpi8, maxEpu8]
  by_cases h : value x i ≤ value y i
  · rw [if_pos h, if_pos rfl]
    exact ⟨fun h0 => absurd h0 (by decide), fun hn => absurd h hn⟩
  · have hne : x i ≠ y i := fun heq => h (le_of_eq (congrArg BitVec.toNat heq))
    rw [if_neg h, if_neg hne]
    exact ⟨fun _ => h, fun _ => rfl⟩

/-- Add, compare and select, where no sum is saturated. -/
theorem addCompareSelect {x y p q : Reg} {i : Fin 16} {u v : Nat} (hu : value x i + value p i = u)
    (hv : value y i + value q i = v) (hu' : u ≤ 255) (hv' : v ≤ 255) :
    value (maxEpu8 (addsEpu8 x p) (addsEpu8 y q)) i = max u v ∧
      (cmpeqEpi8 (maxEpu8 (addsEpu8 x p) (addsEpu8 y q)) (addsEpu8 y q) i = 0 ↔ ¬ u ≤ v) := by
  have hx := value_addsEpu8 (x := x) (y := p) (i := i) (by omega)
  have hy := value_addsEpu8 (x := y) (y := q) (i := i) (by omega)
  rw [value_maxEpu8, cmpeqEpi8_maxEpu8, hx, hy, hu, hv]
  exact ⟨rfl, Iff.rfl⟩

/-! ## The least octet -/

/-- The least of the octets of the lower and of the upper half that belong together, each twice. -/
def foldMin (x : Reg) : Reg := minEpu8 (unpackloEpi8 x x) (unpackhiEpi8 x x)

theorem value_foldMin (x : Reg) (i : Fin 16) :
    value (foldMin x) i = min (value x (halfLane false i)) (value x (halfLane true i)) := by
  rw [foldMin, value_minEpu8, value, value, unpackloEpi8, unpackhiEpi8, ite_self, ite_self]
  rfl

theorem foldMin_le (x : Reg) (upper : Bool) (i : Fin 16) :
    value (foldMin x) i ≤ value x (halfLane upper i) := by
  rw [value_foldMin]
  cases upper
  · exact min_le_left _ _
  · exact min_le_right _ _

theorem foldMin_attained (x : Reg) (i : Fin 16) : ∃ k, value (foldMin x) i = value x k := by
  rw [value_foldMin]
  rcases min_choice (value x (halfLane false i)) (value x (halfLane true i)) with h | h
  · exact ⟨_, h⟩
  · exact ⟨_, h⟩

/-- Four halvings lead from every lane to every other one. -/
theorem halfLane_reaches (i k : Fin 16) : ∃ a b c d : Bool,
    halfLane a (halfLane b (halfLane c (halfLane d i))) = k := by
  revert i k
  decide

def broadcastMin (x : Reg) : Reg := foldMin (foldMin (foldMin (foldMin x)))

theorem broadcastMin_le (x : Reg) (i k : Fin 16) : value (broadcastMin x) i ≤ value x k := by
  obtain ⟨a, b, c, d, rfl⟩ := halfLane_reaches i k
  calc value (broadcastMin x) i
      ≤ value (foldMin (foldMin (foldMin x))) (halfLane d i) := foldMin_le _ d i
    _ ≤ value (foldMin (foldMin x)) (halfLane c (halfLane d i)) := foldMin_le _ c _
    _ ≤ value (foldMin x) (halfLane b (halfLane c (halfLane d i))) := foldMin_le _ b _
    _ ≤ value x (halfLane a (halfLane b (halfLane c (halfLane d i)))) := foldMin_le _ a _

theorem broadcastMin_attained (x : Reg) (i : Fin 16) : ∃ k, value (broadcastMin x) i = value x k := by
  obtain ⟨k₁, h₁⟩ := foldMin_attained (foldMin (foldMin (foldMin x))) i
  obtain ⟨k₂, h₂⟩ := foldMin_attained (foldMin (foldMin x)) k₁
  obtain ⟨k₃, h₃⟩ := foldMin_attained (foldMin x) k₂
  obtain ⟨k₄, h₄⟩ := foldMin_attained x k₃
  exact ⟨k₄, h₁.trans (h₂.trans (h₃.trans h₄))⟩

theorem broadcastMin_eq (x : Reg) (i i' : Fin 16) :
    value (broadcastMin x) i = value (broadcastMin x) i' := by
  obtain ⟨k, hk⟩ := broadcastMin_attained x i
  obtain ⟨k', hk'⟩ := broadcastMin_attained x i'
  have hle := broadcastMin_le x i k'
  have hge := broadcastMin_le x i' k
  omega

end PdmaXen.Lanes
