import Mathlib.Data.List.Nodup
import Mathlib.Order.Interval.Finset.Nat
import PdmaXen.NetDom0.RingMoves

/-!
# Response identity and request stability

As long as every response goes to the slot of a request that is done with, nothing
else fills the response buffer meanwhile and no status is lowered in a slot already
used again, every live request keeps its published words and every response names
the request it answers.
-/

namespace PdmaXen.NetDom0.Ring
set_option autoImplicit false
open Machine

/-- Every response on the ring carries the `id` and the `operation` of the request it
answers, and what a service thread read of its request is what was published. -/
structure Faithful (s : State) : Prop where
  identity : ∀ a ∈ s.answers, ∃ w, s.published[a.1]? = some w ∧
    a.2 idWord = w idWord ∧ a.2 respOperationWord = w reqOperationWord
  stable : ∀ x ∈ s.seen, ∃ w, s.published[x.req]? = some w ∧ x.val = w x.word

/-- The other party is not between its first assignment and its copy with this buffer. -/
def Making.apart (m : Making) : Option Making → Prop
  | none => True
  | some m' => m'.pc = .id ∨ m'.resp ≠ m.resp

instance (m : Making) (other : Option Making) : Decidable (m.apart other) := by
  cases other <;> unfold Making.apart <;> infer_instance

/-- A call starts to fill a buffer nobody else is filling, and its response goes to
its own request's slot or to that of a request done with. -/
def State.MayMake (s : State) (m : Making) (other : Option Making) : Prop :=
  match m.pc with
  | .id => m.apart other
  | .push => s.rspProdPvt = m.req ∨ s.rspProdPvt ∉ s.live
  | .operation | .status => True

instance (s : State) (m : Making) (other : Option Making) : Decidable (s.MayMake m other) := by
  unfold State.MayMake
  split <;> infer_instance

def Orderly (size : Nat) (s : State) : Label → Prop
  | .put _ => True
  | .irq _ => match s.handler with
    | .make m _ _ => s.MayMake m (s.making .service)
    | .lower r _ _ => s.published.length ≤ r + size
    | _ => True
  | .service _ => match s.service with
    | .make m => s.MayMake m (s.making .handler)
    | _ => True

instance (size : Nat) (s : State) (l : Label) : Decidable (Orderly size s l) := by
  unfold Orderly
  split
  · infer_instance
  · split <;> infer_instance
  · split <;> infer_instance

/-! ## Bookkeeping -/

/-- Every consumed request is answered once, or live in one place, or given up, and
the responses never catch up with a live request. -/
structure Booked (size : Nat) (s : State) : Prop where
  once : ∀ r, s.live.count r + (s.answers.map Prod.fst).count r ≤ 1
  live : ∀ r : Nat, r ∈ s.live → s.rspProdPvt ≤ r ∧ r < s.reqCons
  answered : ∀ r : Nat, r ∈ s.answers.map Prod.fst → r < s.reqCons
  counted : s.answers.length = s.rspProdPvt
  cons_le : s.reqCons ≤ s.published.length
  room : s.published.length ≤ s.rspProdPvt + size
  scanned : ∀ rp, s.handler.reqProd = some rp → s.reqCons ≤ rp ∧ rp ≤ s.published.length
  lowered : ∀ r, s.handler.lowering = some r → r ∈ s.answers.map Prod.fst

section
variable {size : Nat} {s s' : State}

theorem Orderly.mayMake {l : Label} {c : Party} {m : Making} (h : Orderly size s l)
    (party : l.party = some c) (hm : s.making c = some m) : s.MayMake m (s.making c.other) := by
  cases l with
  | put w => cases party
  | irq env =>
    cases party
    cases hpc : s.handler with
    | make m' failed rp =>
      rw [State.making, hpc] at hm
      cases hm
      simp only [Orderly, hpc] at h
      exact h
    | _ => simp [State.making, hpc, HandlerPc.making] at hm
  | service completed =>
    cases party
    cases hpc : s.service with
    | make m' =>
      rw [State.making, hpc] at hm
      cases hm
      simp only [Orderly, hpc] at h
      exact h
    | _ => simp [State.making, hpc, ServicePc.making] at hm

theorem Orderly.lower {l : Label} {r : Req} {resp rp : Nat} (h : Orderly size s l)
    (party : l.party = some .handler) (hpc : s.handler = .lower r resp rp) :
    s.published.length ≤ r + size := by
  cases l with
  | irq env => simpa only [Orderly, hpc] using h
  | _ => cases party

theorem mem_of_count_le {l l' : List Req} {r : Req} (h : l'.count r ≤ l.count r) (hr : r ∈ l') :
    r ∈ l :=
  List.count_pos_iff.mp ((List.count_pos_iff.mpr hr).trans_le h)

theorem length_le_of_nodup {l : List Nat} {n : Nat} (h : l.Nodup) (hlt : ∀ a ∈ l, a < n) :
    l.length ≤ n := by
  have hsub : l ⊆ List.range n := fun a ha => List.mem_range.mpr (hlt a ha)
  simpa using (h.subperm hsub).length_le

theorem Booked.nodup (h : Booked size s) : (s.answers.map Prod.fst).Nodup :=
  List.nodup_iff_count_le_one.mpr fun r => (Nat.le_add_left _ _).trans (h.once r)

theorem Booked.not_answered (h : Booked size s) {r : Req} (hr : r ∈ s.live) :
    r ∉ s.answers.map Prod.fst := by
  intro hmem
  have honce := h.once r
  have hlive := List.count_pos_iff.mpr hr
  have hans := List.count_pos_iff.mpr hmem
  omega

/-- A response answers a consumed request, so there are no more of them than requests. -/
theorem Booked.rsp_le (h : Booked size s) : s.rspProdPvt ≤ s.reqCons := by
  have hle := length_le_of_nodup h.nodup h.answered
  rwa [List.length_map, h.counted] at hle

theorem Booked.rsp_lt (h : Booked size s) {r : Req} (hr : r ∈ s.live) :
    s.rspProdPvt < s.reqCons := by
  have hle := length_le_of_nodup (List.nodup_cons.mpr ⟨h.not_answered hr, h.nodup⟩)
    (List.forall_mem_cons.mpr ⟨(h.live r hr).2, h.answered⟩)
  rwa [List.length_cons, List.length_map, h.counted] at hle

theorem Booked.frame (h : Booked size s) (frame : Frame s s') (flow : Flow s s')
    (live : ∀ r, s'.live.count r ≤ s.live.count r)
    (busy : ∀ m, s.handler.making = some m → ∃ m', s'.handler.making = some m') :
    Booked size s' := by
  obtain ⟨hpub, hcons, hrsp, hans⟩ := frame
  constructor
  · intro r
    rw [hans]
    exact (Nat.add_le_add_right (live r) _).trans (h.once r)
  · intro r hr
    rw [hrsp, hcons]
    exact h.live r (mem_of_count_le (live r) hr)
  · rw [hans, hcons]
    exact h.answered
  · rw [hans, hrsp]
    exact h.counted
  · rw [hcons, hpub]
    exact h.cons_le
  · rw [hpub, hrsp]
    exact h.room
  · intro rp hrp
    rw [hcons, hpub]
    rcases flow.reqProd rp hrp with hold | rfl
    · exact h.scanned rp hold
    · exact ⟨h.cons_le, le_rfl⟩
  · intro r hr
    rw [hans]
    rcases flow.lowering r hr with hold | ⟨m, hm, _, rfl⟩
    · exact h.lowered r hold
    · obtain ⟨m', hm'⟩ := busy m hm
      rw [lowering_of_making hm'] at hr
      cases hr

theorem Booked.put (h : Booked size s) (w : Words)
    (hroom : s.published.length - s.rspProdPvt < size) : Booked size (s.put size w) := by
  have hlen : (s.put size w).published.length = s.published.length + 1 := by simp [State.put]
  constructor
  · exact h.once
  · exact h.live
  · exact h.answered
  · exact h.counted
  · rw [hlen]
    exact h.cons_le.trans (Nat.le_succ _)
  · rw [hlen]
    change s.published.length + 1 ≤ s.rspProdPvt + size
    omega
  · intro rp hrp
    rw [hlen]
    obtain ⟨hle, hle'⟩ := h.scanned rp hrp
    exact ⟨hle, hle'.trans (Nat.le_succ _)⟩
  · exact h.lowered

theorem Booked.consume (h : Booked size s) {resp rp : Nat} (hpc : s.handler = .scan resp rp)
    (hne : s.reqCons ≠ rp) :
    Booked size { s with
      reqCons := s.reqCons + 1, handler := .serve ⟨s.reqCons, resp⟩ rp } := by
  obtain ⟨hle, hle'⟩ := h.scanned rp (by rw [hpc]; rfl)
  have hheld : s.live = s.queue.map Task.req ++ s.service.held := by
    rw [State.live, hpc]
    rfl
  have hnotlive : s.live.count s.reqCons = 0 :=
    List.count_eq_zero.mpr fun hmem => lt_irrefl _ (h.live _ hmem).2
  have hnotans : (s.answers.map Prod.fst).count s.reqCons = 0 :=
    List.count_eq_zero.mpr fun hmem => lt_irrefl _ (h.answered _ hmem)
  constructor
  · intro r
    have hr := h.once r
    change (s.reqCons :: (s.queue.map Task.req ++ s.service.held)).count r
      + (s.answers.map Prod.fst).count r ≤ 1
    rw [← hheld, List.count_cons]
    simp only [beq_iff_eq]
    split
    case isTrue heq =>
      subst heq
      omega
    case isFalse => omega
  · intro r hr
    change r ∈ s.reqCons :: (s.queue.map Task.req ++ s.service.held) at hr
    rw [← hheld] at hr
    rcases List.mem_cons.mp hr with rfl | hr
    · exact ⟨h.rsp_le, Nat.lt_succ_self _⟩
    · exact ⟨(h.live r hr).1, (h.live r hr).2.trans (Nat.lt_succ_self _)⟩
  · exact fun r hr => (h.answered r hr).trans (Nat.lt_succ_self _)
  · exact h.counted
  · change s.reqCons + 1 ≤ s.published.length
    omega
  · exact h.room
  · intro rp' hrp'
    obtain rfl : rp = rp' := Option.some.inj hrp'
    change s.reqCons + 1 ≤ rp ∧ rp ≤ s.published.length
    omega
  · intro r hr
    cases hr

theorem Booked.pushed (h : Booked size s) (flow : Flow s s') {c : Party} {m : Making}
    (hat : s.making c = some m) (other : s'.making c.other = s.making c.other)
    (hmay : s.rspProdPvt = m.req ∨ s.rspProdPvt ∉ s.live)
    (live : ∀ r, s'.live.count r + [m.req].count r = s.live.count r)
    (published : s'.published = s.published) (reqCons : s'.reqCons = s.reqCons)
    (rspProdPvt : s'.rspProdPvt = s.rspProdPvt + 1)
    (answers : s'.answers = s.answers ++ [(m.req, s.resps m.resp)]) : Booked size s' := by
  have hmap : s'.answers.map Prod.fst = s.answers.map Prod.fst ++ [m.req] := by simp [answers]
  constructor
  · intro r
    have := h.once r
    have := live r
    rw [hmap, List.count_append]
    omega
  · intro r hr
    have hmem := mem_of_count_le (Nat.le.intro (live r)) hr
    obtain ⟨hle, hlt⟩ := h.live r hmem
    rw [rspProdPvt, reqCons]
    refine ⟨lt_of_le_of_ne hle ?_, hlt⟩
    rintro rfl
    rcases hmay with heq | hnot
    · have honce := h.once s.rspProdPvt
      have hleft := live s.rspProdPvt
      have hpos := List.count_pos_iff.mpr hr
      rw [← heq, List.count_singleton_self] at hleft
      omega
    · exact hnot hmem
  · intro r hr
    rw [hmap] at hr
    rw [reqCons]
    rcases List.mem_append.mp hr with hr | hr
    · exact h.answered r hr
    · obtain rfl := List.mem_singleton.mp hr
      exact (h.live m.req (making_req_mem hat)).2
  · simp [answers, rspProdPvt, h.counted]
  · rw [reqCons, published]
    exact h.cons_le
  · rw [published, rspProdPvt]
    exact h.room.trans (by omega)
  · intro rp hrp
    rw [reqCons, published]
    rcases flow.reqProd rp hrp with hold | rfl
    · exact h.scanned rp hold
    · exact ⟨h.cons_le, le_rfl⟩
  · intro r hr
    rw [hmap]
    rcases flow.lowering r hr with hold | ⟨m', hm', _, rfl⟩
    · exact List.mem_append_left _ (h.lowered r hold)
    · cases c with
      | handler =>
        obtain rfl : m' = m := Option.some.inj (hm'.symm.trans hat)
        exact List.mem_append_right _ (List.mem_singleton_self _)
      | service =>
        rw [lowering_of_making (other.trans hm')] at hr
        cases hr

theorem step_booked {devOn : Bool} {l : Label} (h : Booked size s) (hl : Orderly size s l)
    (hstep : step size devOn s l = some s') : Booked size s' := by
  obtain ⟨hmove, flow⟩ := step_move hstep
  cases hmove with
  | put w room eq => exact eq ▸ h.put w room
  | consume resp rp pc fetched eq => exact eq ▸ h.consume pc fetched
  | pass frame slots live resps making =>
    refine h.frame frame flow live fun m hm => ?_
    rcases making .handler with heq | ⟨hnone, _⟩
    · exact ⟨m, heq.trans hm⟩
    · rw [State.making, hm] at hnone
      cases hnone
  | assign c m pc party at_ next frame slots live resps self other =>
    refine h.frame frame flow (fun r => (congrArg (List.count r) live).le) fun m' hm' => ?_
    cases c with
    | handler => exact ⟨_, self⟩
    | service => exact ⟨m', other.trans hm'⟩
  | push c m party at_ pc live published reqCons resps slots rspProdPvt answers self other =>
    have hmay := hl.mayMake party at_
    rw [State.MayMake, pc] at hmay
    exact h.pushed flow at_ other hmay live published reqCons rspProdPvt answers
  | lowerOwn t rp pc eq =>
    subst eq
    refine h.frame {} flow (fun r => ?_) fun m hm => ?_
    · rw [State.live, State.live, pc]
      rfl
    · rw [pc] at hm
      cases hm
  | lowerAnswered r resp rp party pc eq =>
    subst eq
    refine h.frame {} flow (fun r => ?_) fun m hm => ?_
    · rw [State.live, State.live, pc]
      rfl
    · rw [pc] at hm
      cases hm

/-! ## Slots and buffers -/

theorem mod_ne {r q : Nat} (hne : r ≠ q) (hrq : r < q + size) (hqr : q < r + size) :
    r % size ≠ q % size := by
  intro heq
  rcases Nat.lt_or_gt_of_ne hne with hlt | hlt
  · exact hne (Nat.mod_injOn_Ico r size (by simp; omega) (by simp; omega) heq)
  · exact hne (Nat.mod_injOn_Ico q size (by simp; omega) (by simp; omega) heq)

def State.Pending (s : State) (r : Nat) : Prop := r ∈ s.live ∨ s.reqCons ≤ r

/-- Its slot holds what the front end wrote, but for the status lowered before a
response to an unknown operation. -/
def Kept (size : Nat) (s : State) : Prop :=
  ∀ (r : Nat) w, s.published[r]? = some w → s.Pending r → ∀ i,
    (i = reqStatusWord → ∀ m, s.handler.making = some m → m.req ≠ r) → s.slots (r % size) i = w i

theorem Booked.window (h : Booked size s) {r : Nat} (hr : s.Pending r) : s.rspProdPvt ≤ r := by
  rcases hr with hr | hr
  · exact (h.live r hr).1
  · exact h.rsp_le.trans hr

theorem Booked.mod_ne_of_pending (h : Booked size s) {r q : Nat} (hne : r ≠ q)
    (hr : r < s.published.length) (hpr : s.Pending r) (hq : q < s.published.length)
    (hpq : s.Pending q) : r % size ≠ q % size := by
  have hroom := h.room
  have hwr := h.window hpr
  have hwq := h.window hpq
  exact mod_ne hne (by omega) (by omega)

theorem lt_of_published {r : Nat} {w : Words} (h : s.published[r]? = some w) :
    r < s.published.length := (List.getElem?_eq_some_iff.mp h).1

theorem setSlot_of_ne {r q : Nat} (w : Words) (h : r % size ≠ q % size) :
    (s.setSlot size q w).slots (r % size) = s.slots (r % size) := by
  simp [State.setSlot, h]

theorem lowerStatus_apply (s : State) (r : Nat) {i : Nat} (hi : i ≠ reqStatusWord) :
    (s.lowerStatus size r).slots (r % size) i = s.slots (r % size) i := by
  simp [State.lowerStatus, State.setSlot, State.slot, hi]

theorem Kept.put (hk : Kept size s) (h : Booked size s) (v : Words)
    (hroom : s.published.length - s.rspProdPvt < size) : Kept size (s.put size v) := by
  intro r w hw hr i hi
  by_cases hlast : r = s.published.length
  · subst hlast
    obtain rfl : v = w := by simpa [State.put] using hw
    simp [State.put, State.setSlot]
  · have hlt : r < s.published.length := by
      have := lt_of_published hw
      simp only [State.put, List.length_append, List.length_singleton] at this
      omega
    have hw' : s.published[r]? = some w := by
      simpa [State.put, List.getElem?_append_left hlt] using hw
    have hle := h.window hr
    have hslot : (s.put size v).slots (r % size) = s.slots (r % size) :=
      setSlot_of_ne v (mod_ne hlast (by omega) (by omega))
    rw [hslot]
    exact hk r w hw' hr i hi

theorem Kept.frame (hk : Kept size s) (published : s'.published = s.published)
    (slots : s'.slots = s.slots) (pending : ∀ r, s'.Pending r → s.Pending r)
    (making : ∀ m, s.handler.making = some m → ∃ m', s'.handler.making = some m' ∧ m'.req = m.req) :
    Kept size s' := by
  intro r w hw hr i hi
  rw [slots]
  refine hk r w (published ▸ hw) (pending r hr) i fun hst m hm => ?_
  obtain ⟨m', hm', heq⟩ := making m hm
  exact heq ▸ hi hst m' hm'

theorem pending_of_live (live : ∀ r, r ∈ s'.live → r ∈ s.live) (reqCons : s'.reqCons = s.reqCons)
    (r : Nat) (hr : s'.Pending r) : s.Pending r := by
  rcases hr with hr | hr
  · exact Or.inl (live r hr)
  · exact Or.inr (reqCons ▸ hr)

theorem pending_consume {resp rp : Nat} {r : Nat} (hr : State.Pending { s with
    reqCons := s.reqCons + 1, handler := .serve ⟨s.reqCons, resp⟩ rp } r) : s.Pending r := by
  rcases hr with hr | hr
  · change r ∈ s.reqCons :: (s.queue.map Task.req ++ s.service.held) at hr
    rcases List.mem_cons.mp hr with rfl | hr
    · exact Or.inr le_rfl
    · exact Or.inl (List.mem_append_right _ hr)
  · exact Or.inr ((Nat.le_succ _).trans hr)

theorem Kept.pushed (hk : Kept size s) (h : Booked size s) (h' : Booked size s') {c : Party}
    {m : Making} (hat : s.making c = some m) (other : s'.making c.other = s.making c.other)
    (live : ∀ r, s'.live.count r + [m.req].count r = s.live.count r)
    (published : s'.published = s.published) (reqCons : s'.reqCons = s.reqCons)
    (rspProdPvt : s'.rspProdPvt = s.rspProdPvt + 1)
    (slots : s'.slots = (s.pushResponse size m).slots) : Kept size s' := by
  intro r w hw hr i hi
  have hm := making_req_mem hat
  have hlt := h.rsp_lt hm
  have hgt := h'.window hr
  rw [published] at hw
  rw [rspProdPvt] at hgt
  have hpend := pending_of_live (fun r => mem_of_count_le (Nat.le.intro (live r))) reqCons r hr
  have hslot : s'.slots (r % size) = s.slots (r % size) := by
    have hle := lt_of_published hw
    have hroom := h.room
    rw [slots]
    exact setSlot_of_ne _ (mod_ne (by omega) (by omega) (by omega))
  rw [hslot]
  refine hk r w hw hpend i fun hst m' hm' => ?_
  cases c with
  | service => exact hi hst m' (other.trans hm')
  | handler =>
    obtain rfl : m' = m := Option.some.inj (hm'.symm.trans hat)
    rintro rfl
    rcases hr with hr | hr
    · have honce := h.once m'.req
      have hleft := live m'.req
      have hpos := List.count_pos_iff.mpr hr
      rw [List.count_singleton_self] at hleft
      omega
    · exact absurd (h.live _ hm).2 (not_lt.mpr (reqCons ▸ hr))

theorem Kept.lowerOwn (hk : Kept size s) (h : Booked size s) {t : Task} {rp : Nat}
    (hpc : s.handler = .serve t rp) :
    Kept size { s.lowerStatus size t.req with handler := .make t.making false rp } := by
  intro r w hw hr i hi
  have hnone : ∀ m, s.handler.making = some m → m.req ≠ r := by
    intro m hm
    rw [hpc] at hm
    cases hm
  have hpend : s.Pending r := by
    rw [State.Pending, State.live, hpc]
    exact hr
  have hmem : t.req ∈ s.live := by
    rw [State.live, hpc]
    exact List.mem_append_left _ (List.mem_singleton_self _)
  by_cases hown : r = t.req
  · subst hown
    have hne : i ≠ reqStatusWord := fun hst => hi hst t.making rfl rfl
    exact (lowerStatus_apply s t.req hne).trans (hk _ w hw hpend i fun _ => hnone)
  · have hslot : (s.lowerStatus size t.req).slots (r % size) = s.slots (r % size) :=
      setSlot_of_ne _ (h.mod_ne_of_pending hown (lt_of_published hw) hpend
        ((h.live _ hmem).2.trans_le h.cons_le) (Or.inl hmem))
    exact (congrFun hslot i).trans (hk r w hw hpend i fun _ => hnone)

theorem Kept.lowerAnswered (hk : Kept size s) (h : Booked size s) {q : Req} {resp rp : Nat}
    (hpc : s.handler = .lower q resp rp) (hfree : s.published.length ≤ q + size) :
    Kept size { s.lowerStatus size q with handler := .scan resp rp } := by
  intro r w hw hr i hi
  have hans := h.lowered q (by rw [hpc]; rfl)
  have hpend : s.Pending r := by
    rw [State.Pending, State.live, hpc]
    exact hr
  have hne : r ≠ q := by
    rintro rfl
    rcases hpend with hlive | hcons
    · exact h.not_answered hlive hans
    · exact absurd (h.answered _ hans) (not_lt.mpr hcons)
  have hlt : r < s.published.length := lt_of_published hw
  have hroom := h.room
  have hwin := h.window hpend
  have hq := h.answered q hans
  have hcons := h.cons_le
  have hslot : (s.lowerStatus size q).slots (r % size) = s.slots (r % size) :=
    setSlot_of_ne _ (mod_ne hne (by omega) (by omega))
  refine (congrFun hslot i).trans (hk r w hw hpend i fun _ m hm => ?_)
  rw [hpc] at hm
  cases hm

theorem step_kept {devOn : Bool} {l : Label} (hk : Kept size s) (h : Booked size s)
    (hl : Orderly size s l) (hstep : step size devOn s l = some s') : Kept size s' := by
  have hbook := step_booked h hl hstep
  obtain ⟨hmove, _⟩ := step_move hstep
  cases hmove with
  | put v room eq => exact eq ▸ hk.put h v room
  | consume resp rp pc fetched eq =>
    subst eq
    refine hk.frame rfl rfl (fun r => pending_consume) fun m hm => ?_
    rw [pc] at hm
    cases hm
  | pass frame slots live resps making =>
    refine hk.frame frame.published slots
      (pending_of_live (fun r => mem_of_count_le (live r)) frame.reqCons) fun m hm => ?_
    rcases making .handler with heq | ⟨hnone, _⟩
    · exact ⟨m, heq.trans hm, rfl⟩
    · rw [State.making, hm] at hnone
      cases hnone
  | assign c m pc party at_ next frame slots live resps self other =>
    refine hk.frame frame.published slots
      (pending_of_live (fun r hr => live ▸ hr) frame.reqCons) fun m' hm' => ?_
    cases c with
    | handler =>
      obtain rfl : m' = m := Option.some.inj (hm'.symm.trans at_)
      exact ⟨_, self, rfl⟩
    | service => exact ⟨m', other.trans hm', rfl⟩
  | push c m party at_ pc live published reqCons resps slots rspProdPvt answers self other =>
    exact hk.pushed h hbook at_ other live published reqCons rspProdPvt slots
  | lowerOwn t rp pc eq => exact eq ▸ hk.lowerOwn h pc
  | lowerAnswered q resp rp party pc eq =>
    exact eq ▸ hk.lowerAnswered h pc (hl.lower party pc)

/-! ## Buffers -/

/-- What the assignments so far have put into the buffer. -/
def MakePc.filled (pc : MakePc) (resp w : Words) : Prop :=
  match pc with
  | .id => True
  | .operation => resp idWord = w idWord
  | .status | .push => resp idWord = w idWord ∧ resp respOperationWord = w reqOperationWord

structure Filled (s : State) : Prop where
  words : ∀ c m, s.making c = some m → ∀ w, s.published[m.req]? = some w →
    m.pc.filled (s.resps m.resp) w
  apart : ∀ m m', s.making .handler = some m → s.making .service = some m' → m.pc ≠ .id →
    m'.pc ≠ .id → m'.resp ≠ m.resp

theorem filled_congr {pc : MakePc} {resp resp' w : Words} (hid : resp' idWord = resp idWord)
    (hop : resp' respOperationWord = resp respOperationWord) (h : pc.filled resp w) :
    pc.filled resp' w := by
  cases pc <;> simp_all [MakePc.filled]

theorem Filled.apart_of (hf : Filled s) {c : Party} {m m' : Making} (hm : s.making c = some m)
    (hm' : s.making c.other = some m') (hid : m.pc ≠ .id) (hid' : m'.pc ≠ .id) :
    m'.resp ≠ m.resp := by
  cases c with
  | handler => exact hf.apart m m' hm hm' hid hid'
  | service => exact (hf.apart m' m hm' hm hid' hid).symm

theorem other_cases (c : Party) {P : Party → Prop} (self : P c) (other : P c.other) (c' : Party) :
    P c' := by
  cases c <;> cases c' <;> assumption

theorem assigns_filled (hk : Kept size s) {c : Party} {m : Making} {pc : MakePc} {w : Words}
    (hm : s.making c = some m) (hw : s.published[m.req]? = some w) (next : m.pc.next = some pc)
    (hf : m.pc.filled (s.resps m.resp) w) :
    pc.filled (m.pc.assigns (s.slot size m.req) (s.resps m.resp)) w := by
  have hpend : s.Pending m.req := Or.inl (making_req_mem hm)
  have hword : ∀ i, i ≠ reqStatusWord → s.slot size m.req i = w i :=
    fun i hi => hk m.req w hw hpend i fun h => absurd h hi
  cases hpc : m.pc with
  | id =>
    rw [hpc] at next
    cases next
    simp [MakePc.filled, MakePc.assigns, hword idWord (by decide)]
  | operation =>
    rw [hpc] at next hf
    cases next
    have hne : idWord ≠ respOperationWord := by decide
    simpa [MakePc.filled, MakePc.assigns, hword reqOperationWord (by decide), hne] using hf
  | status =>
    rw [hpc] at next hf
    cases next
    have hne : idWord ≠ respStatusWord := by decide
    have hne' : respOperationWord ≠ respStatusWord := by decide
    simpa [MakePc.filled, MakePc.assigns, hne, hne'] using hf
  | push =>
    rw [hpc] at next
    cases next

theorem step_filled {devOn : Bool} {l : Label} (hf : Filled s) (hk : Kept size s)
    (h : Booked size s) (hl : Orderly size s l) (hstep : step size devOn s l = some s') :
    Filled s' := by
  obtain ⟨hmove, flow⟩ := step_move hstep
  cases hmove with
  | put v room eq =>
    subst eq
    refine ⟨fun c m hm w hw => ?_, hf.apart⟩
    have hlt : m.req < s.published.length :=
      (h.live _ (making_req_mem (s := s) hm)).2.trans_le h.cons_le
    exact hf.words c m hm w (by simpa [State.put, List.getElem?_append_left hlt] using hw)
  | consume resp rp pc fetched eq =>
    subst eq
    refine ⟨fun c m hm w hw => ?_, fun m m' hm => ?_⟩
    · cases c with
      | handler => cases hm
      | service => exact hf.words .service m hm w hw
    · cases hm
  | pass frame slots live resps making =>
    refine ⟨fun c m hm w hw => ?_, fun m m' hm hm' hid hid' => ?_⟩
    · rcases making c with heq | ⟨_, hfresh⟩
      · refine filled_congr (resps _ _ (Or.inl rfl)) (resps _ _ (Or.inr rfl)) ?_
        exact hf.words c m (heq ▸ hm) w (frame.published ▸ hw)
      · rw [hfresh m hm]
        trivial
    · have hold : ∀ c m, s'.making c = some m → m.pc ≠ .id → s.making c = some m := by
        intro c m hm hid
        rcases making c with heq | ⟨_, hfresh⟩
        · exact heq ▸ hm
        · exact absurd (hfresh m hm) hid
      exact hf.apart m m' (hold _ _ hm hid) (hold _ _ hm' hid') hid hid'
  | assign c m pc party at_ next frame slots live resps self other =>
    have hmay := hl.mayMake party at_
    have hapart : ∀ m', s.making c.other = some m' → m'.pc ≠ .id → m'.resp ≠ m.resp := by
      intro m' hm' hid'
      by_cases hid : m.pc = .id
      · rw [State.MayMake, hid, hm'] at hmay
        exact hmay.resolve_left hid'
      · exact hf.apart_of at_ hm' hid hid'
    refine ⟨other_cases c ?_ ?_, ?_⟩
    · intro m' hm' w hw
      obtain rfl : { m with pc } = m' := Option.some.inj (self.symm.trans hm')
      rw [frame.published] at hw
      simpa [resps] using assigns_filled hk at_ hw next (hf.words c m at_ w hw)
    · intro m' hm' w hw
      rw [other] at hm'
      rw [frame.published] at hw
      by_cases hid' : m'.pc = .id
      · rw [hid']
        trivial
      · rw [resps, Function.update_of_ne (hapart m' hm' hid')]
        exact hf.words _ m' hm' w hw
    · intro m₁ m₂ h₁ h₂ hid₁ hid₂
      cases c with
      | handler =>
        obtain rfl : { m with pc } = m₁ := Option.some.inj (self.symm.trans h₁)
        exact hapart m₂ (other.symm.trans h₂) hid₂
      | service =>
        obtain rfl : { m with pc } = m₂ := Option.some.inj (self.symm.trans h₂)
        exact (hapart m₁ (other.symm.trans h₁) hid₁).symm
  | push c m party at_ pc live published reqCons resps slots rspProdPvt answers self other =>
    refine ⟨other_cases c ?_ ?_, fun m₁ m₂ h₁ h₂ => ?_⟩
    · intro m' hm'
      rw [self] at hm'
      cases hm'
    · intro m' hm' w hw
      rw [resps]
      exact hf.words _ m' (other ▸ hm') w (published ▸ hw)
    · cases c with
      | handler =>
        rw [self] at h₁
        cases h₁
      | service =>
        rw [self] at h₂
        cases h₂
  | lowerOwn t rp pc eq =>
    subst eq
    refine ⟨fun c m hm w hw => ?_, fun m m' hm _ hid => ?_⟩
    · cases c with
      | handler =>
        obtain rfl : t.making = m := Option.some.inj hm
        trivial
      | service => exact hf.words .service m hm w hw
    · obtain rfl : t.making = m := Option.some.inj hm
      exact absurd rfl hid
  | lowerAnswered q resp rp party pc eq =>
    subst eq
    refine ⟨fun c m hm w hw => ?_, fun m m' hm => ?_⟩
    · cases c with
      | handler => cases hm
      | service => exact hf.words .service m hm w hw
    · cases hm

/-! ## Runs -/

theorem serviceStep_seen (size : Nat) (devOn : Bool) (s : State) (completed : Bool) :
    (s.serviceStep size devOn completed).seen = s.seen ∨
      ∃ r i, r ∈ s.service.held ∧
        (s.serviceStep size devOn completed).seen = s.seen ++ [⟨r, i, s.slot size r i⟩] := by
  unfold State.serviceStep
  cases hpc : s.service with
  | wait => cases s.queue <;> exact Or.inl rfl
  | account t => exact Or.inr ⟨t.req, reqLengthWord, by simp [ServicePc.held], rfl⟩
  | lenReg t => exact Or.inr ⟨t.req, reqLengthWord, by simp [ServicePc.held], rfl⟩
  | transfer t =>
    simp only
    split <;> exact Or.inl rfl
  | make m =>
    obtain ⟨r, b, pc⟩ := m
    cases pc with
    | push => exact Or.inl rfl
    | _ => exact Or.inr ⟨r, _, List.mem_singleton_self r, rfl⟩
  | waitSer t => cases completed <;> exact Or.inl rfl
  | send t => exact Or.inr ⟨t.req, reqLengthWord, by simp [ServicePc.held], rfl⟩
  | dead t => exact Or.inl rfl

theorem irqStep_seen (size : Nat) (s : State) (env : IrqEnv) :
    (s.irqStep size env).seen = s.seen := by
  unfold State.irqStep
  cases s.handler with
  | scan resp rp =>
    simp only
    split_ifs <;> rfl
  | serve t rp =>
    simp only
    cases operationOf (s.slot size t.req reqOperationWord) <;> rfl
  | make m failed rp =>
    obtain ⟨r, b, pc⟩ := m
    cases pc <;> rfl
  | _ => rfl

theorem step_seen {devOn : Bool} {l : Label} (h : step size devOn s l = some s') :
    s'.seen = s.seen ∨
      ∃ r i, r ∈ s.service.held ∧ s'.seen = s.seen ++ [⟨r, i, s.slot size r i⟩] := by
  cases l with
  | put w =>
    simp only [step] at h
    split at h
    · cases h
      exact Or.inl rfl
    · cases h
  | irq env =>
    cases h
    exact Or.inl (irqStep_seen size s env)
  | service completed =>
    cases h
    exact serviceStep_seen size devOn s completed

theorem Move.published {l : Label} (h : Move size l s s') {r : Nat} {w : Words}
    (hw : s.published[r]? = some w) : s'.published[r]? = some w := by
  cases h with
  | put v room eq =>
    subst eq
    rw [State.put, List.getElem?_append_left (lt_of_published hw)]
    exact hw
  | consume resp rp pc fetched eq => exact eq ▸ hw
  | pass frame slots live resps making => exact frame.published ▸ hw
  | assign c m pc party at_ next frame slots live resps self other => exact frame.published ▸ hw
  | push c m party at_ pc live published reqCons resps slots rspProdPvt answers self other =>
    exact published ▸ hw
  | lowerOwn t rp pc eq => exact eq ▸ hw
  | lowerAnswered r resp rp party pc eq => exact eq ▸ hw

theorem Move.answers {l : Label} (h : Move size l s s') : s'.answers = s.answers ∨
    ∃ c m, s.making c = some m ∧ m.pc = .push ∧
      s'.answers = s.answers ++ [(m.req, s.resps m.resp)] := by
  cases h with
  | put v room eq => exact Or.inl (eq ▸ rfl)
  | consume resp rp pc fetched eq => exact Or.inl (eq ▸ rfl)
  | pass frame slots live resps making => exact Or.inl frame.answers
  | assign c m pc party at_ next frame slots live resps self other => exact Or.inl frame.answers
  | push c m party at_ pc live published reqCons resps slots rspProdPvt answers self other =>
    exact Or.inr ⟨c, m, at_, pc, answers⟩
  | lowerOwn t rp pc eq => exact Or.inl (eq ▸ rfl)
  | lowerAnswered r resp rp party pc eq => exact Or.inl (eq ▸ rfl)

theorem Booked.exists_published (h : Booked size s) {r : Req} (hr : r ∈ s.live) :
    ∃ w, s.published[r]? = some w :=
  ⟨_, List.getElem?_eq_getElem ((h.live r hr).2.trans_le h.cons_le)⟩

/-- A service thread finds in the slot what was published, its status included. -/
theorem Kept.service (hk : Kept size s) (h : Booked size s) {r : Req} {w : Words}
    (hr : r ∈ s.service.held) (hw : s.published[r]? = some w) (i : Nat) :
    s.slot size r i = w i := by
  have hlive : r ∈ s.live := List.mem_append_right _ (List.mem_append_right _ hr)
  refine hk r w hw (Or.inl hlive) i fun _ m hm => ?_
  rintro rfl
  have honce := h.once m.req
  have hservice := List.count_pos_iff.mpr hr
  have hhandler : 0 < s.handler.held.count m.req := by
    cases hpc : s.handler with
    | make m' failed rp =>
      rw [hpc] at hm
      cases hm
      simp [HandlerPc.held]
    | _ => simp [hpc, HandlerPc.making] at hm
  simp only [State.live, List.count_append] at honce
  omega

structure Sound (size : Nat) (s : State) : Prop where
  booked : Booked size s
  kept : Kept size s
  filled : Filled s
  faithful : Faithful s

theorem step_sound {devOn : Bool} {l : Label} (h : Sound size s) (hl : Orderly size s l)
    (hstep : step size devOn s l = some s') : Sound size s' := by
  obtain ⟨hbook, hkept, hfilled, hfaith⟩ := h
  refine ⟨step_booked hbook hl hstep, step_kept hkept hbook hl hstep,
    step_filled hfilled hkept hbook hl hstep, ?_⟩
  obtain ⟨hmove, _⟩ := step_move hstep
  constructor
  · intro a ha
    have hold : a ∈ s.answers → ∃ w, s'.published[a.1]? = some w ∧
        a.2 idWord = w idWord ∧ a.2 respOperationWord = w reqOperationWord := by
      intro ha
      obtain ⟨w, hw, hfields⟩ := hfaith.identity a ha
      exact ⟨w, hmove.published hw, hfields⟩
    rcases hmove.answers with heq | ⟨c, m, hm, hpc, heq⟩
    · exact hold (heq ▸ ha)
    · rw [heq] at ha
      rcases List.mem_append.mp ha with ha | ha
      · exact hold ha
      · obtain rfl := List.mem_singleton.mp ha
        obtain ⟨w, hw⟩ := hbook.exists_published (making_req_mem hm)
        have hwords := hfilled.words c m hm w hw
        rw [hpc] at hwords
        exact ⟨w, hmove.published hw, hwords⟩
  · intro x hx
    have hold : x ∈ s.seen → ∃ w, s'.published[x.req]? = some w ∧ x.val = w x.word := by
      intro hx
      obtain ⟨w, hw, hval⟩ := hfaith.stable x hx
      exact ⟨w, hmove.published hw, hval⟩
    rcases step_seen hstep with heq | ⟨r, i, hr, heq⟩
    · exact hold (heq ▸ hx)
    · rw [heq] at hx
      rcases List.mem_append.mp hx with hx | hx
      · exact hold hx
      · obtain rfl := List.mem_singleton.mp hx
        have hlive : r ∈ s.live := List.mem_append_right _ (List.mem_append_right _ hr)
        obtain ⟨w, hw⟩ := hbook.exists_published hlive
        exact ⟨w, hmove.published hw, hkept.service hbook hr hw i⟩

theorem start_sound (size mapped : Nat) (slots resps : Nat → Words) :
    Sound size (start mapped slots resps) := by
  refine ⟨?_, ?_, ?_, ?_⟩
  · constructor <;> simp [start, State.live, HandlerPc.held, ServicePc.held, HandlerPc.reqProd,
      HandlerPc.lowering]
  · intro r w hw
    simp [start] at hw
  · constructor
    · rintro (_ | _) m hm <;> cases hm
    · intro m m' hm
      cases hm
  · constructor <;> simp [start]

end

/-- Identity of the responses and stability of the requests, in either role, in every
run whose steps are all orderly. -/
theorem response_identity (size : Nat) (devOn : Bool) (mapped : Nat) (slots resps : Nat → Words)
    {s : State} {ls : List Label}
    (hC : Along (step size devOn) (Orderly size) (start mapped slots resps) ls)
    (hrun : exec (step size devOn) (start mapped slots resps) ls = some s) : Faithful s :=
  (invariant_along step_sound (start_sound size mapped slots resps) hC hrun).faithful

def request (id operation : UInt32) : Words := fun i =>
  if i = idWord then id else if i = reqOperationWord then operation
  else if i = reqLengthWord then 4096 else 0

def zeros : Nat → Words := fun _ _ => 0

def writeServed : List Label :=
  [.put (request 6 2), .put (request 7 0)] ++ List.replicate 6 (.irq {}) ++
    List.replicate 8 (.service false)

theorem response_identity_write :
    ∃ s, exec (step 16 true) (start 0 zeros zeros) writeServed = some s ∧
      s.answers.length = 1 ∧ Faithful s := by
  refine exists_end_view _ (fun s => s.answers.length) (v := 1) (by decide +kernel) ?_
  intro t hrun hv
  exact ⟨hv, response_identity 16 true 0 zeros zeros (by decide +kernel) hrun⟩

/-- Behind the MAP a WRITE and two IOCTLs. The first IOCTL is answered into the slot of the
MAP, the second into that of the WRITE. -/
def ioctlsOverWrite : List Label :=
  [.put (request 6 2), .put (request 7 0), .put (request 8 1), .put (request 9 1)] ++
    List.replicate 20 (.irq {}) ++ List.replicate 8 (.service false)

theorem write_answered_with_foreign_id :
    ∃ s, exec (step 16 true) (start 0 zeros zeros) ioctlsOverWrite = some s ∧ ¬ Faithful s := by
  refine exists_end_view _
    (fun s => (s.answers.map fun a => (a.1, a.2 idWord), s.published.map (· idWord)))
    (v := ([(2, 8), (3, 9), (1, 9)], [6, 7, 8, 9])) (by decide +kernel) fun t hrun hv hf => ?_
  obtain ⟨hans, hpub⟩ := Prod.mk.inj hv
  have hmem : ((1, 9) : Req × UInt32) ∈ t.answers.map fun a => (a.1, a.2 idWord) := by
    rw [hans]
    decide
  obtain ⟨a, ha, heq⟩ := List.mem_map.mp hmem
  obtain ⟨hreq, hid⟩ := Prod.mk.inj heq
  obtain ⟨w, hw, hword, _⟩ := hf.identity a ha
  have hpublished : (t.published.map (· idWord))[a.1]? = some (w idWord) := by
    rw [List.getElem?_map, hw]
    rfl
  rw [hreq, hpub, ← hword, hid] at hpublished
  exact absurd hpublished (by decide)

end PdmaXen.NetDom0.Ring
