import PdmaXen.Pdma.Ownership

/-!
# Reads deliver the completed blocks in order

The blocks taken so far, in the order in which the calls took them, and the
blocks on `rd_pending` make up what the device has completed. A failed copy keeps
this only while no later block has been taken, and the bounce path of v1.3, which
hands out a block a second time, breaks it.
-/

namespace PdmaXen.Pdma
set_option autoImplicit false
open Pool

/-- The block a `pdma_read` has taken and not yet delivered or given back. -/
def RdPc.copying : RdPc → Option Buf
  | copyBounce b | bump b | copyUser b | requeue b => some b
  | _ => none

def RdPc.sized : RdPc → Bool
  | idle | start | bounceCopy | bounceClear | bounceBump | enter | checkEnable | checkSize => false
  | exit _ => false
  | _ => true

theorem RdPc.copying_mapWait (f : Wait → Wait) (pc : RdPc) :
    (pc.mapWait f).copying = pc.copying := by
  cases pc <;> rfl

theorem RdPc.sized_mapWait (f : Wait → Wait) (pc : RdPc) : (pc.mapWait f).sized = pc.sized := by
  cases pc <;> rfl

theorem RdPc.held_of_copying {pc : RdPc} {b : Buf} (h : pc.copying = some b) :
    pc.held = some b := by
  cases pc <;> simp_all [copying, held]

theorem RdPc.copying_of_not_passed {pc : RdPc} (h : pc.passed = false) : pc.copying = none := by
  cases pc <;> simp_all [passed, inside, copying]

theorem RdPc.not_sized_of_not_passed {pc : RdPc} (h : pc.passed = false) : pc.sized = false := by
  cases pc <;> simp_all [passed, inside, sized]

theorem RdNext.sized_imp {g : Geometry} {d : Dev} {count : Nat} {pc pc' : RdPc} {n : Int}
    (h : RdNext g d count pc pc' n) (hp : pc.sized = true → count = g.rdBufSize)
    (hs : pc'.sized = true) : count = g.rdBufSize := by
  cases h with
  | sized size => exact size
  | take b pc src | empty pc src =>
    rcases src with rfl | rfl
    · exact hp rfl
    · exact hp rfl
  | idle | bounce | start | bounceCopy | bounceClear | bounceBump | enter | enabled | leave | exit =>
    cases hs
  | _ => exact hp rfl

def Take.openBy (p : Pid) (t : Take) : Bool := t.pid == p && !t.done

/-- The blocks that have reached user space, in the order in which they were taken. -/
def History.delivered (h : History) : List Bytes := (h.takes.filter Take.done).map Take.data

namespace Dev
variable {g : Geometry} {d d' : Dev} {p : Pid}

/-- What one step of a `pdma_read` that stays off the bounce path does to the stream. -/
inductive StreamMove (d : Dev) (p : Pid) (d' : Dev) : Prop where
  | quiet (pending : d'.rd.pending = d.rd.pending) (takes : d'.hist.takes = d.hist.takes)
      (copying : (d'.readers p).pc.copying = (d.readers p).pc.copying)
  | take (b : Buf) (rest : List Buf) (before : d.rd.pending = b :: rest)
      (empty : (d.readers p).pc.copying = none) (pending : d'.rd.pending = rest)
      (takes : d'.hist.takes = d.hist.takes ++ [Take.mk p (d.rd.mem b) false])
      (copying : (d'.readers p).pc.copying = some b)
  | deliver (b : Buf) (pc : (d.readers p).pc = .copyUser b) (pending : d'.rd.pending = d.rd.pending)
      (takes : d'.hist.takes = d.hist.takes.map fun t =>
        if t.openBy p then
          { t with data := (d.rd.mem b).take (d.readers p).count, done := true }
        else t)
      (copying : (d'.readers p).pc.copying = none)
  | requeue (b : Buf) (pc : (d.readers p).pc = .requeue b)
      (pending : d'.rd.pending = b :: d.rd.pending)
      (takes : d'.hist.takes = d.hist.takes.filter fun t => !t.openBy p)
      (copying : (d'.readers p).pc.copying = none)

theorem StreamMove.quiet_setRd {e : Dev} {pc : RdPc} (hpending : e.rd.pending = d.rd.pending)
    (htakes : e.hist.takes = d.hist.takes) (hpc : pc.copying = (d.readers p).pc.copying) :
    StreamMove d p (e.setRd p pc) :=
  .quiet hpending htakes (by rw [setRd_readers_self, hpc])

theorem tryRead_stream (hp : (d.readers p).pc.copying = none) : StreamMove d p (d.tryRead p) := by
  unfold tryRead
  split
  · rename_i b rest hpend
    refine .take b rest hpend hp rfl rfl ?_
    rw [setRd_readers_self]
    rfl
  · refine .quiet_setRd rfl rfl ?_
    rw [hp]
    split <;> rfl

theorem rdStep_stream (g : Geometry) (bn : Bounce) (copyOk sig : Bool)
    (hp : (d.readers p).pc ≠ .bounceCopy) : StreamMove d p (d.rdStep g bn p copyOk sig).2 := by
  have hcopying : (d.readers p).pc.copying = (d.readers p).pc.copying := rfl
  unfold rdStep
  cases hpc : (d.readers p).pc <;> rw [hpc] at hcopying hp <;> dsimp only
  case idle => exact .quiet rfl rfl (by rw [hpc])
  case bounceCopy => exact absurd rfl hp
  case tryRead => exact tryRead_stream (by rw [hpc]; rfl)
  case requeue b =>
    refine .requeue b hpc rfl rfl ?_
    rw [requeueRead, setRd_readers_self]
    rfl
  case copyUser b =>
    split
    · refine .deliver b hpc rfl rfl ?_
      rw [setRd_readers_self]
      rfl
    · exact .quiet_setRd rfl rfl (by rw [hpc]; rfl)
  case submit =>
    obtain ⟨n, st, _, _, _, heq⟩ := tryToSubmitReadNolock_eq g d
    rw [heq]
    exact .quiet_setRd rfl rfl (by rw [hpc]; rfl)
  case relock =>
    split
    · exact tryRead_stream (by rw [hpc]; rfl)
    · exact .quiet_setRd rfl rfl (by rw [hpc]; rfl)
  case asleep w =>
    split
    · exact .quiet_setRd rfl rfl (by rw [hpc]; rfl)
    · split
      · exact .quiet_setRd rfl rfl (by rw [hpc]; rfl)
      · exact .quiet rfl rfl (by rw [hpc])
  case start | checkEnable | checkSize | prepared | finish =>
    refine .quiet_setRd rfl rfl ?_
    rw [hpc]
    split <;> rfl
  all_goals exact .quiet_setRd rfl rfl (by rw [hpc]; rfl)

theorem rdStep_mem (g : Geometry) (bn : Bounce) (d : Dev) (p : Pid) (copyOk sig : Bool) :
    (d.rdStep g bn p copyOk sig).2.rd.mem = d.rd.mem := by
  cases rdStep_move g bn d p copyOk sig with
  | submit rd _ =>
    obtain ⟨n, st, _, _, _, heq⟩ := tryToSubmitReadNolock_eq g d
    rw [rd, heq]
    rfl
  | stay rd _ | take _ _ _ _ rd _ | requeue _ _ _ rd _ | release _ _ rd _ => rw [rd]

end Dev

open Dev

/-- Taken blocks followed by pending ones are the completed ones; each call that
is copying has one open take, with the bytes of its buffer. -/
structure Stream (g : Geometry) (d : Dev) : Prop where
  order : d.hist.takes.map Take.data ++ d.rd.pending.map d.rd.mem = d.hist.completed
  full : ∀ blk ∈ d.hist.completed, blk.length = g.rdBufSize
  opened : ∀ p, d.hist.takes.filter (Take.openBy p) =
    ((d.readers p).pc.copying.map fun b => Take.mk p (d.rd.mem b) false).toList
  sized : ∀ p, (d.readers p).pc.sized = true → (d.readers p).count = g.rdBufSize

/-- The steps that keep the stream: nobody takes the bounce path, and a copy that
failed is given back before any later block has been taken. -/
def straight (d : Dev) : Label → Bool
  | .rdStep p _ _ =>
    match (d.readers p).pc with
    | .bounceCopy => false
    | .requeue _ => d.hist.takes.getLast?.any (Take.openBy p)
    | _ => true
  | _ => true

variable {g : Geometry} {d d' : Dev} {bn bn' : Bounce} {l : Label} {p : Pid}

theorem Take.not_openBy_of_ne {q : Pid} {t : Take} (hq : q ≠ p) (h : t.openBy q = true) :
    t.openBy p = false := by
  simp only [openBy, Bool.and_eq_true, beq_iff_eq] at h
  simp [openBy, h.1, hq]

theorem filter_openBy_of_ne {q : Pid} (hq : q ≠ p) (ts : List Take) :
    (ts.filter fun t => !t.openBy p).filter (Take.openBy q) = ts.filter (Take.openBy q) := by
  rw [List.filter_filter]
  apply List.filter_congr
  intro t _
  cases hopen : t.openBy q with
  | false => rfl
  | true => simp [Take.not_openBy_of_ne hq hopen]

theorem filter_close (q : Pid) (data : Bytes) (ts : List Take) :
    (ts.map fun t => if t.openBy p then { t with data := data, done := true } else t).filter
        (Take.openBy q) =
      if q = p then [] else ts.filter (Take.openBy q) := by
  induction ts with
  | nil => simp
  | cons t ts ih =>
    rw [List.map_cons]
    cases hp : t.openBy p with
    | true =>
      have hclosed : Take.openBy q { t with data := data, done := true } = false := by
        simp [Take.openBy]
      rw [if_pos rfl, List.filter_cons_of_neg (by simp [hclosed]), ih]
      by_cases hq : q = p
      · rw [if_pos hq, if_pos hq]
      · have hother : t.openBy q = false := Take.not_openBy_of_ne (Ne.symm hq) hp
        rw [if_neg hq, if_neg hq, List.filter_cons_of_neg (by simp [hother])]
    | false =>
      rw [if_neg (by simp), List.filter_cons, List.filter_cons, ih]
      by_cases hq : q = p
      · simp [hq, hp]
      · simp [hq]

theorem map_data_close {data : Bytes} {ts : List Take}
    (h : ∀ t ∈ ts, t.openBy p = true → t.data = data) :
    (ts.map fun t => if t.openBy p then { t with data := data, done := true } else t).map Take.data =
      ts.map Take.data := by
  rw [List.map_map]
  apply List.map_congr_left
  intro t ht
  simp only [Function.comp]
  split
  · rename_i hopen
    exact (h t ht hopen).symm
  · rfl

theorem filter_last {t u : Take} {ts : List Take} (hlast : ts.getLast? = some t)
    (hopen : t.openBy p = true) (hone : ts.filter (Take.openBy p) = [u]) :
    ts = (ts.filter fun t => !t.openBy p) ++ [u] := by
  obtain ⟨init, rfl⟩ := List.getLast?_eq_some_iff.mp hlast
  rw [List.filter_append, List.filter_cons_of_pos hopen, List.filter_nil] at hone
  obtain ⟨hnone, rfl⟩ : init.filter (Take.openBy p) = [] ∧ t = u := by
    cases hinit : init.filter (Take.openBy p) with
    | nil => simpa [hinit] using hone
    | cons x xs => simp [hinit] at hone
  have hkeep : (init.filter fun t => !t.openBy p) = init := by
    rw [List.filter_eq_self]
    intro x hx
    simpa using (List.filter_eq_nil_iff.mp hnone) x hx
  rw [List.filter_append, hkeep, List.filter_cons_of_neg (by simp [hopen]), List.filter_nil,
    List.append_nil]

theorem Stream.open_take (h : Stream g d) {b : Buf} (hp : (d.readers p).pc.copying = some b) :
    d.hist.takes.filter (Take.openBy p) = [Take.mk p (d.rd.mem b) false] := by
  rw [h.opened p, hp]
  rfl

theorem Stream.block_length (h : Stream g d) {b : Buf} (hp : (d.readers p).pc.copying = some b) :
    (d.rd.mem b).length = g.rdBufSize := by
  apply h.full
  have hmem : Take.mk p (d.rd.mem b) false ∈ d.hist.takes := by
    have hin : Take.mk p (d.rd.mem b) false ∈ d.hist.takes.filter (Take.openBy p) := by
      rw [h.open_take hp]
      exact List.mem_singleton_self _
    exact List.mem_of_mem_filter hin
  rw [← h.order]
  exact List.mem_append_left _ (List.mem_map_of_mem hmem)

/-- The order and the open takes depend on the kind of step, the rest does not. -/
theorem Stream.of_reader (h : Stream g d) (hstepped : RdStepped g d p d')
    (hmem : d'.rd.mem = d.rd.mem) (hcompleted : d'.hist.completed = d.hist.completed)
    (horder : d'.hist.takes.map Take.data ++ d'.rd.pending.map d.rd.mem = d.hist.completed)
    (hown : d'.hist.takes.filter (Take.openBy p) =
      ((d'.readers p).pc.copying.map fun b => Take.mk p (d.rd.mem b) false).toList)
    (hother : ∀ q, q ≠ p →
      d'.hist.takes.filter (Take.openBy q) = d.hist.takes.filter (Take.openBy q)) :
    Stream g d' := by
  refine ⟨?_, ?_, fun q => ?_, fun q => ?_⟩
  · rw [hcompleted, hmem]
    exact horder
  · rw [hcompleted]
    exact h.full
  · rw [hmem]
    by_cases hq : q = p
    · rw [hq]
      exact hown
    · rw [hother q hq, hstepped.others q hq]
      exact h.opened q
  · by_cases hq : q = p
    · subst q
      rw [hstepped.count]
      exact hstepped.next.sized_imp (h.sized p)
    · rw [hstepped.others q hq]
      exact h.sized q

theorem Stream.take (h : Stream g d) {b : Buf} {rest : List Buf} (before : d.rd.pending = b :: rest)
    (empty : (d.readers p).pc.copying = none) (hstepped : RdStepped g d p d')
    (hmem : d'.rd.mem = d.rd.mem) (hcompleted : d'.hist.completed = d.hist.completed)
    (pending : d'.rd.pending = rest)
    (takes : d'.hist.takes = d.hist.takes ++ [Take.mk p (d.rd.mem b) false])
    (copying : (d'.readers p).pc.copying = some b) : Stream g d' := by
  refine h.of_reader hstepped hmem hcompleted ?_ ?_ fun q hq => ?_
  · have horder := h.order
    rw [before] at horder
    rw [takes, pending, ← horder]
    simp
  · have hnone := h.opened p
    rw [empty] at hnone
    rw [takes, copying, List.filter_append, hnone]
    simp [Take.openBy]
  · rw [takes, List.filter_append]
    simp [Take.openBy, Ne.symm hq]

/-- The copied bytes are the block itself: the call has checked its size. -/
theorem Stream.copied_block (h : Stream g d) {b : Buf} (pc : (d.readers p).pc = .copyUser b) :
    (d.rd.mem b).take (d.readers p).count = d.rd.mem b := by
  apply List.take_of_length_le
  have hcopying : (d.readers p).pc.copying = some b := by
    rw [pc]
    rfl
  rw [h.block_length hcopying, h.sized p (by rw [pc]; rfl)]

theorem Stream.deliver (h : Stream g d) {b : Buf} (hcopying : (d.readers p).pc.copying = some b)
    (hstepped : RdStepped g d p d') (hmem : d'.rd.mem = d.rd.mem)
    (hcompleted : d'.hist.completed = d.hist.completed) (pending : d'.rd.pending = d.rd.pending)
    (takes : d'.hist.takes = d.hist.takes.map fun t =>
      if t.openBy p then { t with data := d.rd.mem b, done := true } else t)
    (copying : (d'.readers p).pc.copying = none) : Stream g d' := by
  refine h.of_reader hstepped hmem hcompleted ?_ ?_ fun q hq => ?_
  · rw [takes, pending, map_data_close, h.order]
    intro t ht hopen
    have hin : t ∈ d.hist.takes.filter (Take.openBy p) := List.mem_filter.mpr ⟨ht, hopen⟩
    rw [h.open_take hcopying, List.mem_singleton] at hin
    rw [hin]
  · rw [takes, filter_close, if_pos rfl, copying]
    rfl
  · rw [takes, filter_close, if_neg hq]

/-- The block goes back to where it came from, if no later one has been taken. -/
theorem Stream.requeue (h : Stream g d) {b : Buf} {t : Take}
    (hcopying : (d.readers p).pc.copying = some b) (hlast : d.hist.takes.getLast? = some t)
    (hopen : t.openBy p = true) (hstepped : RdStepped g d p d') (hmem : d'.rd.mem = d.rd.mem)
    (hcompleted : d'.hist.completed = d.hist.completed)
    (pending : d'.rd.pending = b :: d.rd.pending)
    (takes : d'.hist.takes = d.hist.takes.filter fun t => !t.openBy p)
    (copying : (d'.readers p).pc.copying = none) : Stream g d' := by
  have hsplit := filter_last hlast hopen (h.open_take hcopying)
  refine h.of_reader hstepped hmem hcompleted ?_ ?_ fun q hq => ?_
  · rw [takes, pending, ← h.order]
    conv_rhs => rw [hsplit]
    simp
  · rw [takes, copying, List.filter_filter]
    simp
  · rw [takes]
    exact filter_openBy_of_ne hq d.hist.takes

theorem rdStep_stream_inv {copyOk sig : Bool} (hs : straight d (.rdStep p copyOk sig) = true)
    (h : Stream g d) : Stream g (d.rdStep g bn p copyOk sig).2 := by
  have hoff : (d.readers p).pc ≠ .bounceCopy := by
    intro hpc
    simp [straight, hpc] at hs
  obtain ⟨_, _, _, _, _, _, heq⟩ := rdStep_frame g bn d p copyOk sig
  have hcompleted : (d.rdStep g bn p copyOk sig).2.hist.completed = d.hist.completed := by rw [heq]
  have hmem := rdStep_mem g bn d p copyOk sig
  have hstepped := rdStep_stepped g bn d p copyOk sig
  cases rdStep_stream g bn copyOk sig hoff with
  | quiet pending takes copying =>
    refine h.of_reader hstepped hmem hcompleted ?_ ?_ fun q _ => by rw [takes]
    · rw [takes, pending]
      exact h.order
    · rw [takes, copying]
      exact h.opened p
  | take b rest before empty pending takes copying =>
    exact h.take before empty hstepped hmem hcompleted pending takes copying
  | deliver b pc pending takes copying =>
    rw [h.copied_block pc] at takes
    exact h.deliver (by rw [pc]; rfl) hstepped hmem hcompleted pending takes copying
  | requeue b pc pending takes copying =>
    simp only [straight, pc] at hs
    obtain ⟨t, hlast, hopen⟩ := (Option.any_eq_true _ _).mp hs
    exact h.requeue (by rw [pc]; rfl) hlast hopen hstepped hmem hcompleted pending takes copying

theorem Stream.congr (h : Stream g d) (hrd : d'.rd.pending = d.rd.pending)
    (hmem : d'.rd.mem = d.rd.mem) (htakes : d'.hist.takes = d.hist.takes)
    (hcompleted : d'.hist.completed = d.hist.completed)
    (hcopying : ∀ p, (d'.readers p).pc.copying = (d.readers p).pc.copying)
    (hsized : ∀ p, (d'.readers p).pc.sized = true → (d'.readers p).count = g.rdBufSize) :
    Stream g d' := by
  refine ⟨?_, ?_, fun p => ?_, hsized⟩
  · rw [hrd, hmem, htakes, hcompleted]
    exact h.order
  · rw [hcompleted]
    exact h.full
  · rw [htakes, hmem, hcopying]
    exact h.opened p

theorem isrStep_stream {blks : List Bytes} {n : Nat} (hm : IsrMove g d p blks n d')
    (hd : Exclusive d.rd.listed d.rdHeld) (h : Stream g d) : Stream g d' := by
  cases hm with
  | idle _ eq =>
    rw [eq]
    exact h
  | off _ _ eq =>
    subst eq
    exact h.congr rfl rfl rfl rfl (fun _ => rfl) h.sized
  | wakeRd _ _ eq =>
    subst eq
    refine h.congr rfl rfl rfl rfl (fun q => RdPc.copying_mapWait _ _) fun q hq => h.sized q ?_
    exact (RdPc.sized_mapWait _ _).symm.trans hq
  | wakeWt _ eq =>
    subst eq
    exact h.congr rfl rfl rfl rfl (fun _ => rfl) h.sized
  | notify _ _ reads _ full k m mem st _ _ _ kept filled _ _ _ _ eq =>
    have hnodup := hd.nodup
    simp only [Side.listed, List.append_assoc] at hnodup
    have hsubmit : d.rd.submit.Nodup := (List.nodup_append.mp (List.nodup_append.mp hnodup).2.1).1
    have hapart : ∀ b ∈ d.rd.pending, mem b = d.rd.mem b := by
      intro b hb
      refine kept b fun hin => ?_
      have hne := (List.nodup_append.mp (List.nodup_append.mp hnodup).2.1).2.2
      exact hne b (List.mem_of_mem_take hin) b hb rfl
    have hheld : ∀ q b, (d.readers q).pc.copying = some b → mem b = d.rd.mem b := by
      intro q b hq
      refine kept b fun hin => hd.off (p := q) (RdPc.held_of_copying hq) ?_
      simp only [Side.listed, List.mem_append]
      exact .inl (.inr (List.mem_of_mem_take hin))
    rw [eq]
    refine ⟨?_, ?_, fun q => ?_, h.sized⟩
    · simp only [Dev.setIsr, List.map_append, filled hsubmit]
      rw [List.map_congr_left hapart, ← List.append_assoc, h.order]
    · intro blk hblk
      rcases List.mem_append.mp hblk with hold | hnew
      · exact h.full blk hold
      · exact full blk hnew
    · have hopened := h.opened q
      cases hq : (d.readers q).pc.copying with
      | none =>
        rw [hq] at hopened
        simpa [Dev.setIsr, hq] using hopened
      | some b =>
        rw [hq] at hopened
        simpa [Dev.setIsr, hq, hheld q b hq] using hopened

theorem step_stream (hl : l.isCtlCall = false) (hs : straight d l = true)
    (hstep : step g bn d l = some (bn', d')) (hsound : Sound g d) (h : Stream g d) :
    Stream g d' := by
  cases step_cases hstep with
  | rdCall p count nonblock hidle =>
    refine h.congr rfl rfl rfl rfl (fun q => ?_) fun q hq => ?_
    · exact pc_rdCall (f := RdPc.copying) hidle rfl count nonblock q
    · by_cases hqp : q = p
      · subst q
        simp [RdPc.sized] at hq
      · simp only [Function.update_of_ne hqp] at hq ⊢
        exact h.sized q hq
  | rdStep p copyOk sig => exact rdStep_stream_inv hs h
  | wtStep p copied sig =>
    obtain ⟨_, _, _, _, _, heq⟩ := wtStep_frame g d p copied sig
    rw [heq]
    exact h.congr rfl rfl rfl rfl (fun _ => rfl) h.sized
  | isrStep p blks n _ he =>
    exact isrStep_stream (isrStep_move hsound.fifos.rd hsound.fifos.wt he) hsound.disjoint.rd h
  | ctlCall => cases hl
  | ctlStep p resetOk =>
    unfold ctlStep
    rcases hsound.running.tail p with hp | ⟨k, hp⟩ <;> rw [hp] <;> dsimp only
    · exact h
    · obtain ⟨n, st, _, _, _, heq⟩ := tryToSubmitReadNolock_eq g d
      rw [heq]
      exact h.congr rfl rfl rfl rfl (fun _ => rfl) h.sized
  | _ => exact h.congr rfl rfl rfl rfl (fun _ => rfl) h.sized

theorem Starts.stream {d₀ : Dev} (h : Starts g d₀ d) (hquiet : d₀.Quiet) : Stream g d := by
  obtain ⟨p, k, hp, -, rfl⟩ := h
  unfold ctlStep
  rw [hp]
  dsimp only
  rw [listInit_eq]
  refine ⟨rfl, fun blk hblk => (by cases hblk), fun q => ?_, fun q hq => ?_⟩
  · have hnone := RdPc.copying_of_not_passed (hquiet.rd q)
    simp [Dev.setCtl, hnone]
  · have hno := RdPc.not_sized_of_not_passed (hquiet.rd q)
    simp [Dev.setCtl, hno] at hq

/-- Between a start that found nobody past the gate and the next stop, in a run
that stays straight, the taken blocks are a prefix of the completed ones, and so
are the delivered ones whenever no call is in the middle of a copy. -/
theorem read_stream {geo : Nat → Geometry} {i : Nat} {d₀ : Dev} {s t : Driver}
    {ls : List (Nat × Label)} (hstart : Starts (geo i) d₀ (s.dev i)) (hquiet : d₀.Quiet)
    (hls : ∀ l ∈ ls, l.1 = i → l.2.isCtlCall = false)
    (hstraight : Machine.Along (Driver.step geo) 
      (fun s l => l.1 = i → straight (s.dev i) l.2 = true) s ls)
    (hrun : Machine.exec (Driver.step geo) s ls = some t) :
    (t.dev i).hist.takes.map Take.data <+: (t.dev i).hist.completed ∧
      ((∀ p, ((t.dev i).readers p).pc.copying = none) →
        (t.dev i).hist.delivered <+: (t.dev i).hist.completed) := by
  obtain ⟨-, hstream⟩ := Driver.invariant_along (I := fun d => Sound (geo i) d ∧ Stream (geo i) d)
    (C := fun _ d l => l.isCtlCall = false ∧ straight d l = true)
    (fun h hC hstep => ⟨step_sound hC.1 hstep h.1, step_stream hC.1 hC.2 hstep h.1 h.2⟩)
    ⟨hstart.sound hquiet.emptyHanded, hstart.stream hquiet⟩
    (((Machine.along_of_forall hls).and hstraight).mono fun _ _ h hi => ⟨h.1 hi, h.2 hi⟩) hrun
  have htaken : (t.dev i).hist.takes.map Take.data <+: (t.dev i).hist.completed :=
    ⟨_, hstream.order⟩
  refine ⟨htaken, fun hnone => ?_⟩
  have hall : (t.dev i).hist.takes.filter Take.done = (t.dev i).hist.takes := by
    rw [List.filter_eq_self]
    intro u hu
    by_contra hopen
    have hin : u ∈ (t.dev i).hist.takes.filter (Take.openBy u.pid) :=
      List.mem_filter.mpr ⟨hu, by simpa [Take.openBy] using hopen⟩
    rw [hstream.opened, hnone] at hin
    cases hin
  rw [History.delivered, hall]
  exact htaken

theorem read_stream_two_readers :
    let d₀ := (Dev.init smallCard).setCtl 0 (.startInit .ioctl)
    let s : Driver := ⟨{}, fun _ => d₀.ctlStep smallCard 0 true⟩
    let ls : List (Nat × Label) :=
      [(0, .ctlStep 0 true), (0, .isrCall 0),
        (0, .isrStep 0 [List.replicate 4096 1, List.replicate 4096 2] 0),
        (0, .rdCall 0 4096 false), (0, .rdCall 1 4096 false), (0, .rdStep 1 true false)] ++
        List.replicate 5 (0, .rdStep 0 true false) ++ List.replicate 10 (0, .rdStep 1 true false) ++
        List.replicate 6 (0, .rdStep 0 true false)
    ∃ t, Machine.exec (Driver.step fun _ => smallCard) s ls = some t ∧
      (t.dev 0).hist.delivered.map List.head? = [some 1, some 2] ∧
      (t.dev 0).hist.takes.map Take.data <+: (t.dev 0).hist.completed ∧
      ((∀ p, ((t.dev 0).readers p).pc.copying = none) →
        (t.dev 0).hist.delivered <+: (t.dev 0).hist.completed) := by
  intro d₀ s ls
  refine Machine.exists_end_view _ (fun t => (t.dev 0).hist.delivered.map List.head?)
    (v := [some 1, some 2]) (by decide +kernel) fun t hrun hview => ⟨hview, ?_⟩
  refine read_stream (i := 0) (?_ : Starts _ d₀ _) ⟨fun _ => rfl, fun _ => rfl⟩ ?_ ?_ hrun
  · exact ⟨0, .ioctl, rfl, fun q hq => Function.update_of_ne hq _ _, rfl⟩
  · decide +kernel
  · decide +kernel

/-- The device completes two different blocks and one process reads twice: the
second read takes the bounce path and delivers the first block again. -/
theorem second_read_repeats_block :
    let d₀ := (Dev.init smallCard).setCtl 0 (.startInit .ioctl)
    let s : Driver := ⟨{}, fun _ => d₀.ctlStep smallCard 0 true⟩
    ∃ t, Machine.exec (Driver.step fun _ => smallCard) s
        ([(0, .ctlStep 0 true), (0, .isrCall 0),
          (0, .isrStep 0 [List.replicate 4096 1, List.replicate 4096 2] 0),
          (0, .rdCall 0 4096 false)] ++ List.replicate 11 (0, .rdStep 0 true false) ++
          [(0, .rdCall 0 4096 false)] ++ List.replicate 4 (0, .rdStep 0 true false)) = some t ∧
      (∀ u ∈ (t.dev 0).hist.takes, u.done = true) ∧
      ¬ (t.dev 0).hist.delivered <+: (t.dev 0).hist.completed := by
  intro d₀ s
  refine Machine.exists_end_view _ (fun t => ((t.dev 0).hist.takes.all Take.done,
      (t.dev 0).hist.delivered.map List.head?, (t.dev 0).hist.completed.map List.head?))
    (v := (true, [some 1, some 1], [some 1, some 2])) (by decide +kernel) fun t _ hview => ?_
  simp only [Prod.mk.injEq] at hview
  obtain ⟨hdone, hdelivered, hcompleted⟩ := hview
  refine ⟨fun u hu => List.all_eq_true.mp hdone u hu, fun hprefix => ?_⟩
  have hheads := hprefix.map List.head?
  rw [hdelivered, hcompleted] at hheads
  revert hheads
  decide

end PdmaXen.Pdma
