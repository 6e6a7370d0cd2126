import PdmaXen.Pdma.Moves

/-!
# What one card can do to the readers of another

The devices of one module share nothing but `bbuf` and `flgrd`. As long as no
read of another card reaches the statements on these two, two runs that treat a
card alike give its readers the same results.
-/

namespace PdmaXen.Pdma
set_option autoImplicit false

/-- The statements of `pdma_read` that write `bbuf` or `flgrd`. -/
def RdPc.writesBounce : RdPc → Bool
  | copyBounce _ | bump _ | bounceClear | bounceBump => true
  | _ => false

def keepsBounce (d : Dev) : Label → Bool
  | .rdStep p _ _ => !(d.readers p).pc.writesBounce
  | _ => true

variable {g : Geometry} {bn bn' : Bounce} {d d' : Dev} {l : Label}

theorem Dev.rdStep_bounce {p : Pid} {copyOk sig : Bool}
    (h : (d.readers p).pc.writesBounce = false) : (d.rdStep g bn p copyOk sig).1 = bn := by
  unfold rdStep
  cases hpc : (d.readers p).pc <;> rw [hpc] at h <;> first | rfl | cases h

theorem step_bounce (h : keepsBounce d l = true) (hstep : step g bn d l = some (bn', d')) :
    bn' = bn := by
  cases step_cases hstep with
  | rdStep p copyOk sig =>
    apply Dev.rdStep_bounce
    simpa [keepsBounce] using h
  | _ => rfl

/-- The readers of card `b` cannot tell the two states apart. -/
structure SameFor (b : Nat) (s t : Driver) : Prop where
  bounce : s.bounce = t.bounce
  dev : s.dev b = t.dev b

section
variable {geo : Nat → Geometry} {b : Nat} {s s' t t' : Driver} {m : Nat × Label}

theorem SameFor.symm (h : SameFor b s t) : SameFor b t s := ⟨h.bounce.symm, h.dev.symm⟩

theorem SameFor.left (h : SameFor b s t) (hm : decide (m.1 = b) = false)
    (hkeep : m.1 ≠ b → keepsBounce (s.dev m.1) m.2 = true)
    (hstep : Driver.step geo s m = some s') : SameFor b s' t := by
  have hne : m.1 ≠ b := of_decide_eq_false hm
  obtain ⟨⟨bn, d⟩, hd, rfl⟩ := Option.map_eq_some_iff.mp hstep
  have hbn : bn = s.bounce := step_bounce (hkeep hne) hd
  refine ⟨hbn.trans h.bounce, ?_⟩
  rw [← h.dev]
  exact Function.update_of_ne (Ne.symm hne) ..

theorem SameFor.lock (h : SameFor b s t) (hm : decide (m.1 = b) = true)
    (hs : Driver.step geo s m = some s') (ht : Driver.step geo t m = some t') :
    SameFor b s' t' := by
  have heq : m.1 = b := of_decide_eq_true hm
  obtain ⟨r, hr, rfl⟩ := Option.map_eq_some_iff.mp hs
  obtain ⟨q, hq, rfl⟩ := Option.map_eq_some_iff.mp ht
  rw [heq, h.bounce, h.dev] at hr
  rw [heq, hr] at hq
  obtain rfl := Option.some.inj hq
  refine ⟨rfl, ?_⟩
  simp only [heq, Function.update_self]

end

/-- Two runs with the same labels for card `b`, in which no read of another card
reaches `bbuf` or `flgrd`, give the readers of `b` the same results and bytes. -/
theorem device_isolation {geo : Nat → Geometry} {b : Nat} {s s' t t' : Driver}
    {ls ms : List (Nat × Label)} (hbounce : s.bounce = t.bounce) (hdev : s.dev b = t.dev b)
    (hsame : ls.filter (fun l => l.1 = b) = ms.filter (fun l => l.1 = b))
    (hls : Machine.Along (Driver.step geo)
      (fun s l => l.1 ≠ b → keepsBounce (s.dev l.1) l.2 = true) s ls)
    (hms : Machine.Along (Driver.step geo)
      (fun s l => l.1 ≠ b → keepsBounce (s.dev l.1) l.2 = true) t ms)
    (hs : Machine.exec (Driver.step geo) s ls = some s')
    (ht : Machine.exec (Driver.step geo) t ms = some t') :
    (s'.dev b).hist.results = (t'.dev b).hist.results := by
  have hend : SameFor b s' t' := Machine.unwinding (R := SameFor b) (fun h => h.symm)
    (fun h hm hkeep hstep => h.left hm hkeep hstep) (fun h hm hs ht => h.lock hm hs ht)
    ⟨hbounce, hdev⟩ hsame hls hms hs ht
  rw [hend.dev]

/-- Two started cards. Card 0 completes a block of ones and is read once; the other
run also writes to card 1 first. -/
theorem device_isolation_writes_elsewhere :
    let d := ((Dev.init smallCard).setCtl 0 (.startInit .ioctl)).ctlStep smallCard 0 true
    let s : Driver := ⟨{}, fun _ => d⟩
    let ls : List (Nat × Label) :=
      [(0, .ctlStep 0 true), (0, .isrCall 0), (0, .isrStep 0 [List.replicate 4096 1] 0),
        (0, .rdCall 0 4096 false)] ++ List.replicate 11 (0, .rdStep 0 true false)
    let ms := [(1, .wtCall 0 4096 false)] ++ List.replicate 6 (1, .wtStep 0 (some []) false) ++ ls
    ∃ s', Machine.exec (Driver.step fun _ => smallCard) s ls = some s' ∧
      ∃ t', Machine.exec (Driver.step fun _ => smallCard) s ms = some t' ∧
        (s'.dev 0).hist.results = (t'.dev 0).hist.results := by
  intro d s ls ms
  refine Machine.exists_end _ (by decide +kernel) fun s' hs =>
    Machine.exists_end _ (by decide +kernel) fun t' ht => ?_
  refine device_isolation rfl rfl (Machine.filter_hidden_append ?_) ?_ ?_ hs ht
  · decide
  · decide +kernel
  · decide +kernel

/-- The other run reads a block of twos from card 1 first: the read of card 0 then
returns that block. -/
theorem read_elsewhere_changes_read :
    let d := ((Dev.init smallCard).setCtl 0 (.startInit .ioctl)).ctlStep smallCard 0 true
    let s : Driver := ⟨{}, fun _ => d⟩
    let ls : List (Nat × Label) :=
      [(0, .ctlStep 0 true), (0, .isrCall 0), (0, .isrStep 0 [List.replicate 4096 1] 0),
        (0, .rdCall 0 4096 false)] ++ List.replicate 11 (0, .rdStep 0 true false)
    let ms : List (Nat × Label) :=
      [(1, .ctlStep 0 true), (1, .isrCall 0), (1, .isrStep 0 [List.replicate 4096 2] 0),
        (1, .rdCall 0 4096 false)] ++ List.replicate 11 (1, .rdStep 0 true false) ++ ls
    ls.filter (fun l => l.1 = 0) = ms.filter (fun l => l.1 = 0) ∧
    ∃ s', Machine.exec (Driver.step fun _ => smallCard) s ls = some s' ∧
      ∃ t', Machine.exec (Driver.step fun _ => smallCard) s ms = some t' ∧
        (s'.dev 0).hist.results ≠ (t'.dev 0).hist.results := by
  intro d s ls ms
  have hview : ∀ {rs qs : List RdResult}, rs.map (fun r => r.bytes.head?) = [some 1] →
      qs.map (fun r => r.bytes.head?) = [some 2] → rs ≠ qs := by
    intro rs qs hrs hqs heq
    rw [heq, hqs] at hrs
    revert hrs
    decide
  refine ⟨Machine.filter_hidden_append (by decide +kernel), ?_⟩
  refine Machine.exists_end_view _ (fun t => (t.dev 0).hist.results.map fun r => r.bytes.head?)
    (v := [some 1]) (by decide +kernel) fun s' _ hs => ?_
  refine Machine.exists_end_view _ (fun t => (t.dev 0).hist.results.map fun r => r.bytes.head?)
    (v := [some 2]) (by decide +kernel) fun t' _ ht => ?_
  exact hview hs ht

end PdmaXen.Pdma
