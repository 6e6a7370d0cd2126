import Mathlib.Data.List.Basic

/-!
# Labelled machines

A machine is a partial step function on states and labels. A label fixes which
process moves and what its environment answers, so a list of labels is one
interleaving. Nothing here knows the programs that are run.
-/

namespace PdmaXen.Machine
set_option autoImplicit false

universe u v
variable {σ : Type u} {ℓ : Type v} (step : σ → ℓ → Option σ)

/-- Run a list of labels; `none` as soon as one of them is not enabled. -/
def exec (s : σ) (ls : List ℓ) : Option σ := ls.foldlM step s

@[simp] theorem exec_nil (s : σ) : exec step s [] = some s := rfl

theorem exec_cons (s : σ) (l : ℓ) (ls : List ℓ) :
    exec step s (l :: ls) = (step s l).bind fun t => exec step t ls := rfl

theorem exec_cons_eq_some {s t : σ} {l : ℓ} {ls : List ℓ} :
    exec step s (l :: ls) = some t ↔ ∃ m, step s l = some m ∧ exec step m ls = some t := by
  rw [exec_cons, Option.bind_eq_some_iff]

theorem exec_append (s : σ) (ls ms : List ℓ) :
    exec step s (ls ++ ms) = (exec step s ls).bind fun t => exec step t ms := by
  simp only [exec, List.foldlM_append]
  rfl

theorem exists_end {P : σ → Prop} {s : σ} {ls : List ℓ} (h : (exec step s ls).isSome)
    (hP : ∀ t, exec step s ls = some t → P t) : ∃ t, exec step s ls = some t ∧ P t := by
  obtain ⟨t, ht⟩ := Option.isSome_iff_exists.mp h
  exact ⟨t, ht, hP t ht⟩

theorem exists_end_view {β : Type v} {P : σ → Prop} {s : σ} {ls : List ℓ} (view : σ → β) {v : β}
    (h : (exec step s ls).map view = some v)
    (hP : ∀ t, exec step s ls = some t → view t = v → P t) : ∃ t, exec step s ls = some t ∧ P t := by
  obtain ⟨t, ht, hv⟩ := Option.map_eq_some_iff.mp h
  exact ⟨t, ht, hP t ht hv⟩

/-- Every step of the run starts in a state that meets `C` for its label. -/
def Along (C : σ → ℓ → Prop) : σ → List ℓ → Prop
  | _, [] => True
  | s, l :: ls => C s l ∧ ∀ t, step s l = some t → Along C t ls

variable {step}

instance Along.decidable {C : σ → ℓ → Prop} [∀ s l, Decidable (C s l)] :
    (s : σ) → (ls : List ℓ) → Decidable (Along step C s ls)
  | _, [] => isTrue trivial
  | s, l :: ls =>
    match h : step s l with
    | none => decidable_of_iff (C s l) ⟨fun hl => ⟨hl, by simp [h]⟩, fun hl => hl.1⟩
    | some t =>
      have : Decidable (Along step C t ls) := Along.decidable t ls
      decidable_of_iff (C s l ∧ Along step C t ls)
        ⟨fun hl => ⟨hl.1, by simpa [h] using hl.2⟩, fun hl => ⟨hl.1, hl.2 t h⟩⟩

theorem Along.mono {C D : σ → ℓ → Prop} (hCD : ∀ s l, C s l → D s l) {s : σ} {ls : List ℓ}
    (h : Along step C s ls) : Along step D s ls := by
  induction ls generalizing s with
  | nil => trivial
  | cons l ls ih => exact ⟨hCD s l h.1, fun t ht => ih (h.2 t ht)⟩

theorem Along.and {C D : σ → ℓ → Prop} {s : σ} {ls : List ℓ} (hC : Along step C s ls)
    (hD : Along step D s ls) : Along step (fun s l => C s l ∧ D s l) s ls := by
  induction ls generalizing s with
  | nil => trivial
  | cons l ls ih => exact ⟨⟨hC.1, hD.1⟩, fun t ht => ih (hC.2 t ht) (hD.2 t ht)⟩

theorem along_of_forall {C : ℓ → Prop} {s : σ} {ls : List ℓ} (h : ∀ l ∈ ls, C l) :
    Along step (fun _ l => C l) s ls := by
  induction ls generalizing s with
  | nil => trivial
  | cons l ls ih =>
    exact ⟨h l List.mem_cons_self, fun _ _ => ih fun m hm => h m (List.mem_cons_of_mem l hm)⟩

/-- What every guarded step preserves holds after every guarded run. -/
theorem invariant_along {C : σ → ℓ → Prop} {I : σ → Prop}
    (preserved : ∀ {s l t}, I s → C s l → step s l = some t → I t)
    {s t : σ} {ls : List ℓ} (hs : I s) (hC : Along step C s ls) (hrun : exec step s ls = some t) :
    I t := by
  induction ls generalizing s with
  | nil =>
    cases hrun
    exact hs
  | cons l ls ih =>
    obtain ⟨m, hm, hrest⟩ := (exec_cons_eq_some step).mp hrun
    exact ih (preserved hs hC.1 hm) (hC.2 m hm) hrest

theorem along_of_invariant {C D : σ → ℓ → Prop} {I : σ → Prop}
    (preserved : ∀ {s l t}, I s → C s l → step s l = some t → I t)
    (safe : ∀ {s l}, I s → C s l → D s l) {s : σ} {ls : List ℓ} (hs : I s)
    (hC : Along step C s ls) : Along step D s ls := by
  induction ls generalizing s with
  | nil => trivial
  | cons l ls ih =>
    exact ⟨safe hs hC.1, fun t ht => ih (preserved hs hC.1 ht) (hC.2 t ht)⟩

theorem Along.cons {C : σ → ℓ → Prop} {s t : σ} {l : ℓ} {ls : List ℓ} (ht : step s l = some t)
    (hl : C s l) (hls : Along step C t ls) : Along step C s (l :: ls) := by
  refine ⟨hl, fun u hu => ?_⟩
  obtain rfl : t = u := Option.some.inj (ht.symm.trans hu)
  exact hls

/-- What every step keeps exactly under a guard holds after exactly the guarded runs;
the steps need only be judged in the states of an invariant. -/
theorem along_iff_of_invariant {I P : σ → Prop} {C : σ → ℓ → Prop}
    (preserved : ∀ {s l t}, I s → step s l = some t → I t)
    (hstep : ∀ {s l t}, I s → step s l = some t → (P t ↔ P s ∧ C s l)) {s t : σ} {ls : List ℓ}
    (hs : I s) (hrun : exec step s ls = some t) : P t ↔ P s ∧ Along step C s ls := by
  induction ls generalizing s with
  | nil =>
    cases hrun
    simp [Along]
  | cons l ls ih =>
    obtain ⟨m, hm, hrest⟩ := (exec_cons_eq_some step).mp hrun
    rw [ih (preserved hs hm) hrest, hstep hs hm, and_assoc]
    simp [Along, hm]

theorem along_iff {P : σ → Prop} {C : σ → ℓ → Prop}
    (hstep : ∀ {s l t}, step s l = some t → (P t ↔ P s ∧ C s l)) {s t : σ} {ls : List ℓ}
    (hrun : exec step s ls = some t) : P t ↔ P s ∧ Along step C s ls :=
  along_iff_of_invariant (I := fun _ => True) (fun _ _ => trivial) (fun _ h => hstep h) trivial hrun

/-- Guarded steps avoid the bad states and all others enter one: the guarded runs are
those that never meet a bad state. -/
theorem along_iff_never {C : σ → ℓ → Prop} {I Bad : σ → Prop}
    (htotal : ∀ s l, ∃ t, step s l = some t)
    (preserved : ∀ {s l t}, I s → C s l → step s l = some t → I t) (safe : ∀ {s}, I s → ¬Bad s)
    (broken : ∀ {s l t}, I s → ¬C s l → step s l = some t → Bad t) {s : σ} {ls : List ℓ} (hs : I s) :
    Along step C s ls ↔ ∀ ms, ms <+: ls → ∀ t, exec step s ms = some t → ¬Bad t := by
  constructor
  · intro hls ms hms t hrun
    obtain ⟨rest, rfl⟩ := hms
    refine safe (invariant_along preserved hs ?_ hrun)
    clear hrun hs
    induction ms generalizing s with
    | nil => trivial
    | cons l ms ih => exact ⟨hls.1, fun m hm => ih (hls.2 m hm)⟩
  · intro hnever
    induction ls generalizing s with
    | nil => trivial
    | cons l ls ih =>
      obtain ⟨m, hm⟩ := htotal s l
      have hl : C s l := by
        by_contra hl
        refine hnever [l] ⟨ls, rfl⟩ m ?_ (broken hs hl hm)
        rw [exec_cons_eq_some]
        exact ⟨m, hm, rfl⟩
      refine .cons hm hl (ih (preserved hs hl hm) fun ms hms t hrun => ?_)
      refine hnever (l :: ms) ?_ t ((exec_cons_eq_some step).mpr ⟨m, hm, hrun⟩)
      obtain ⟨rest, rfl⟩ := hms
      exact ⟨rest, rfl⟩

/-- The guarded runs are those in all of whose states the property holds. -/
theorem along_iff_always {C : σ → ℓ → Prop} {I P : σ → Prop}
    (htotal : ∀ s l, ∃ t, step s l = some t)
    (preserved : ∀ {s l t}, I s → C s l → step s l = some t → I t) (safe : ∀ {s}, I s → P s)
    (broken : ∀ {s l t}, I s → ¬C s l → step s l = some t → ¬P t) {s : σ} {ls : List ℓ} (hs : I s) :
    Along step C s ls ↔ ∀ ms, ms <+: ls → ∀ t, exec step s ms = some t → P t := by
  have hiff : Along step C s ls ↔ ∀ ms, ms <+: ls → ∀ t, exec step s ms = some t → ¬¬P t :=
    along_iff_never htotal preserved (fun hs hbad => hbad (safe hs)) broken hs
  simpa only [Classical.not_not] using hiff

theorem exec_total (htotal : ∀ s l, ∃ t, step s l = some t) (s : σ) (ls : List ℓ) :
    ∃ t, exec step s ls = some t := by
  induction ls generalizing s with
  | nil => exact ⟨s, rfl⟩
  | cons l ls ih =>
    obtain ⟨m, hm⟩ := htotal s l
    obtain ⟨t, ht⟩ := ih m
    exact ⟨t, (exec_cons_eq_some step).mpr ⟨m, hm, ht⟩⟩

theorem invariant {I : σ → Prop} (preserved : ∀ {s l t}, I s → step s l = some t → I t)
    {s t : σ} {ls : List ℓ} (hs : I s) (hrun : exec step s ls = some t) : I t :=
  invariant_along (C := fun _ _ => True) (fun h _ => preserved h) hs
    (along_of_forall fun _ _ => trivial) hrun

/-- What guarded steps never leave was not entered by a run that ends outside of it. -/
theorem along_avoids {C : σ → ℓ → Prop} {Bad : σ → Prop}
    (kept : ∀ {s l t}, Bad s → C s l → step s l = some t → Bad t) {s t : σ} {ls : List ℓ}
    (hC : Along step C s ls) (hrun : exec step s ls = some t) (hend : ¬ Bad t) :
    Along step (fun s l => ¬ Bad s ∧ ∀ t, step s l = some t → ¬ Bad t) s ls := by
  induction ls generalizing s with
  | nil => trivial
  | cons l ls ih =>
    obtain ⟨m, hm, hrest⟩ := (exec_cons_eq_some step).mp hrun
    have hbad : ¬ Bad m := fun hbad => hend (invariant_along kept hbad (hC.2 m hm) hrest)
    refine .cons hm ⟨fun hs => hbad (kept hs hC.1 hm), fun u hu => ?_⟩ (ih (hC.2 m hm) hrest)
    obtain rfl : m = u := Option.some.inj (hm.symm.trans hu)
    exact hbad

/-- A machine that follows every guarded step of another one follows its guarded runs. -/
theorem exec_follows {τ : Type u} {step' : τ → ℓ → Option τ} {C : σ → ℓ → Prop} {R : σ → τ → Prop}
    (follows : ∀ {s l t e}, R s e → C s l → step s l = some t → ∃ f, step' e l = some f ∧ R t f)
    {s t : σ} {e : τ} {ls : List ℓ} (hR : R s e) (hC : Along step C s ls)
    (hrun : exec step s ls = some t) : ∃ f, exec step' e ls = some f ∧ R t f := by
  induction ls generalizing s e with
  | nil =>
    cases hrun
    exact ⟨e, rfl, hR⟩
  | cons l ls ih =>
    obtain ⟨m, hm, hrest⟩ := (exec_cons_eq_some step).mp hrun
    obtain ⟨f, hf, hRf⟩ := follows hR hC.1 hm
    obtain ⟨f', hf', hRf'⟩ := ih hRf (hC.2 m hm) hrest
    exact ⟨f', (exec_cons_eq_some step').mpr ⟨f, hf, hf'⟩, hRf'⟩

section Unwinding
variable {low : ℓ → Bool} {R : σ → σ → Prop} {C : σ → ℓ → Prop}

theorem filter_hidden_append {hs ls : List ℓ} (h : ∀ l ∈ hs, low l = false) :
    ls.filter low = (hs ++ ls).filter low := by
  have hnil : hs.filter low = [] := List.filter_eq_nil_iff.mpr fun l hl => by simp [h l hl]
  rw [List.filter_append, hnil, List.nil_append]

theorem unwinding_hidden
    (left : ∀ {s l s' t}, R s t → low l = false → C s l → step s l = some s' → R s' t)
    {s s' t : σ} {ls : List ℓ} (hR : R s t) (hls : ∀ l ∈ ls, low l = false)
    (hC : Along step C s ls) (hrun : exec step s ls = some s') : R s' t := by
  induction ls generalizing s with
  | nil =>
    cases hrun
    exact hR
  | cons l ls ih =>
    obtain ⟨m, hm, hrest⟩ := (exec_cons_eq_some step).mp hrun
    have hl := hls l List.mem_cons_self
    exact ih (left hR hl hC.1 hm) (fun x hx => hls x (List.mem_cons_of_mem l hx)) (hC.2 m hm) hrest

/-- Two runs with the same visible labels end in related states when hidden
steps keep the relation on either side and visible steps keep it in lockstep. -/
theorem unwinding (symm : ∀ {s t}, R s t → R t s)
    (left : ∀ {s l s' t}, R s t → low l = false → C s l → step s l = some s' → R s' t)
    (lock : ∀ {s t l s' t'}, R s t → low l = true → step s l = some s' → step t l = some t' →
      R s' t')
    {s s' t t' : σ} {ls ms : List ℓ} (hR : R s t) (hsame : ls.filter low = ms.filter low)
    (hls : Along step C s ls) (hms : Along step C t ms)
    (hs : exec step s ls = some s') (ht : exec step t ms = some t') : R s' t' := by
  induction ls generalizing s t ms with
  | nil =>
    cases hs
    have hhidden : ∀ l ∈ ms, low l = false := by
      intro l hl
      have hnil : ms.filter low = [] := by simpa using hsame.symm
      simpa using (List.filter_eq_nil_iff.mp hnil) l hl
    exact symm (unwinding_hidden left (symm hR) hhidden hms ht)
  | cons l ls ih =>
    obtain ⟨m, hm, hrest⟩ := (exec_cons_eq_some step).mp hs
    cases hl : low l with
    | false =>
      rw [List.filter_cons_of_neg (by simp [hl])] at hsame
      exact ih (left hR hl hls.1 hm) hsame (hls.2 m hm) hms hrest ht
    | true =>
      rw [List.filter_cons_of_pos (by simp [hl])] at hsame
      -- the other run reaches the same visible label after some hidden ones
      induction ms generalizing t with
      | nil => simp at hsame
      | cons k ms ihm =>
        obtain ⟨n, hn, hrest'⟩ := (exec_cons_eq_some step).mp ht
        cases hk : low k with
        | false =>
          rw [List.filter_cons_of_neg (by simp [hk])] at hsame
          exact ihm (symm (left (symm hR) hk hms.1 hn)) hsame (hms.2 n hn) hrest'
        | true =>
          rw [List.filter_cons_of_pos (by simp [hk])] at hsame
          obtain ⟨rfl, htail⟩ := List.cons.inj hsame
          exact ih (lock hR hl hm hn) htail (hls.2 m hm) (hms.2 n hn) hrest hrest'

end Unwinding

end PdmaXen.Machine
