import PdmaXen.Dom0.Threads

/-!
# One DomU on the device at a time

A message of a DomU is open from its first block write to the read of the last block
of its answer. `wting_domu_id` is to keep every other DomU off the device meanwhile.
A READ looks neither at it nor at the lock, a waiter goes on without the lock, and
the reset that closes a session comes after the device is given away.
-/

namespace PdmaXen.Dom0
set_option autoImplicit false
open Machine

/-- The message of a DomU as the device sees it: `len` bytes of answer, `sz` of them read. -/
inductive Message where
  | closed
  | written
  | answering (len sz : Nat)
deriving DecidableEq

/-- The length of the answer is `ctrl.val` at its first block read. `ctrl` is a local variable that the
later READs do not set, so that what is in it then is not looked at; it is not the length either when the
first READ finds `readed_sz` left over. -/
def Message.next (blockSz : Nat) : Message → DevOp → Message
  | .closed, .write _ => .written
  | .written, .read val true =>
    if val.toNat ≤ blockSz then .closed else .answering val.toNat blockSz
  | .answering len sz, .read _ true =>
    if len ≤ sz + blockSz then .closed else .answering len (sz + blockSz)
  | m, _ => m

def Event.opOf (d : Dom) : Event → Option DevOp
  | .op d' o => if d' = d then some o else none
  | _ => none

/-- The message of `d` after the events of `trace`. -/
def message (cfg : Config) (d : Dom) (trace : List Event) : Message :=
  (trace.filterMap (Event.opOf d)).foldl (Message.next cfg.wtBlockSz.toNat) .closed

def DevOp.exclusive : DevOp → Bool
  | .stat => false
  | _ => true

/-- The device gets nothing on behalf of a DomU while another one's message is open, and
the lock is released by its holder. -/
structure Exclusive (cfg : Config) (trace : List Event) : Prop where
  device : ∀ before d o after, trace = before ++ .op d o :: after → o.exclusive →
    ∀ e, e ≠ d → message cfg e before = .closed
  lock : ∀ d holder, .unlock d holder ∈ trace → holder = some d

/-- Between giving the device away and the reset that closes the session. -/
def Pc.closing : Pc → Bool
  | .read _ .active | .read _ .setWs | .read _ .wake | .read _ .reset => true
  | _ => false

/-- A READ is only taken from the DomU that owns the device, no thread leaves the wait for
its turn, and a READ ends the session only with the last block of the answer. -/
def inTurn (cfg : Config) (s : State) : Label → Bool
  | .take d req => req.operation != .read || s.wtingDomuId == some d
  | .run d _ =>
    match s.pc d with
    | .write _ .waitTest | .write _ .waitRetest => !s.writePdmaWs
    | .read _ (.finish val) => message cfg d s.trace == .closed || s.readedSz < val
    | _ => true

def Pc.writing : Pc → Bool
  | .write _ .block => true
  | _ => false

/-- No message is begun while the reset that closes another session is outstanding. -/
def Begins (cfg : Config) (s : State) : Label → Prop
  | .take _ _ => True
  | .run d _ => (s.pc d).writing → message cfg d s.trace = .closed →
    ∀ e, e ≠ d → (s.pc e).closing = false

structure Orderly (cfg : Config) (s : State) (l : Label) : Prop where
  turn : inTurn cfg s l
  begins : Begins cfg s l

/-! ## Who owns the device -/

def Pc.holds : Pc → Bool
  | .write _ .lock | .write _ .waitTest | .write _ .prepare | .write _ .waitRetest
  | .write _ .asleep => false
  | .write _ _ | .ioctlStat _ | .ioctlRespond _ | .ioctlUnlock => true
  | _ => false

def Pc.owning : Pc → Bool
  | .write _ .resetTest | .write _ .reset | .write _ .lenTest | .write _ .lenReg
  | .write _ .block => true
  | .read _ .active | .read _ .setWs | .read _ .wake | .read _ .reset => false
  | .read _ _ => true
  | _ => false

def Pc.ended : Pc → Bool
  | .read _ .clear | .read _ .release => true
  | pc => pc.closing

structure Standing (cfg : Config) (s : State) (d : Dom) : Prop where
  lock : (s.pc d).holds → s.pdmaLock = some d
  claim : ∀ req, s.pc d = .write req .claim → s.wtingDomuId = none
  stay : ∀ req, s.pc d ≠ .write req .takeOver
  owner : (s.pc d).owning → s.wtingDomuId = some d
  ended : (s.pc d).ended → message cfg d s.trace = .closed
  opened : message cfg d s.trace ≠ .closed →
    s.wtingDomuId = some d ∧ ∀ e, e ≠ d → (s.pc e).closing = false

def Owned (cfg : Config) (s : State) : Prop := ∀ d, Standing cfg s d

section
variable {cfg : Config} {s s' s₁ : State} {d : Dom}

structure Moves (cfg : Config) (s s' : State) (d : Dom) : Prop where
  pc : ∀ e, e ≠ d → s'.pc e = s.pc e
  lock : s'.pdmaLock = s.pdmaLock ∨ s.pdmaLock = none ∨ s.pdmaLock = some d
  wting : s'.wtingDomuId = s.wtingDomuId ∨
    (s.wtingDomuId = none ∧ s.pdmaLock = some d) ∨ s.wtingDomuId = some d
  message : ∀ e, e ≠ d → message cfg e s'.trace = message cfg e s.trace
  closing : (s'.pc d).closing → (s.pc d).closing ∨ s.wtingDomuId = some d

theorem Moves.wting_eq (hm : Moves cfg s s' d) {e : Dom} (he : e ≠ d)
    (h : s.wtingDomuId = some e) : s'.wtingDomuId = some e := by
  rcases hm.wting with hw | ⟨hw, -⟩ | hw
  · exact hw.trans h
  · rw [hw] at h
    cases h
  · rw [hw] at h
    exact absurd (Option.some.inj h).symm he

theorem Owned.advance (h : Owned cfg s) (hm : Moves cfg s s' d) (hd : Standing cfg s' d) :
    Owned cfg s' := by
  intro e
  rcases eq_or_ne e d with rfl | he
  · exact hd
  have hlock : (s.pc e).holds → s.pdmaLock = some e := (h e).lock
  exact {
    lock := by
      rw [hm.pc e he]
      intro hholds
      rcases hm.lock with hl | hl | hl
      · exact hl.trans (hlock hholds)
      · rw [hlock hholds] at hl
        cases hl
      · rw [hlock hholds] at hl
        exact absurd (Option.some.inj hl) he
    claim := by
      rw [hm.pc e he]
      intro req hpc
      have hnone := (h e).claim req hpc
      rcases hm.wting with hw | ⟨-, hl⟩ | hw
      · exact hw.trans hnone
      · rw [hlock (by rw [hpc]; rfl)] at hl
        exact absurd (Option.some.inj hl) he
      · rw [hnone] at hw
        cases hw
    stay := by
      rw [hm.pc e he]
      exact (h e).stay
    owner := by
      rw [hm.pc e he]
      exact fun howns => hm.wting_eq he ((h e).owner howns)
    ended := by
      rw [hm.pc e he, hm.message e he]
      exact (h e).ended
    opened := by
      rw [hm.message e he]
      intro hopen
      obtain ⟨hown, hclosing⟩ := (h e).opened hopen
      refine ⟨hm.wting_eq he hown, fun f hf => ?_⟩
      rcases eq_or_ne f d with rfl | hfd
      · rw [Bool.eq_false_iff]
        intro hf'
        rcases hm.closing hf' with hc | hw
        · rw [hclosing f hf] at hc
          cases hc
        · rw [hown] at hw
          exact he (Option.some.inj hw)
      · rw [hm.pc f hfd]
        exact hclosing f hf }

structure Allowed (cfg : Config) (s : State) (d : Dom) (pc pc' : Pc) : Prop where
  claim : ∀ req, pc' = .write req .claim → s.wtingDomuId = none := by simp
  stay : ∀ req, pc' ≠ .write req .takeOver := by simp
  owner : pc'.owning → s.wtingDomuId = some d := by simp [Pc.owning]
  ended : pc'.ended → message cfg d s.trace = .closed := by simp [Pc.ended, Pc.closing]
  closing : pc'.closing → pc.closing ∨ s.wtingDomuId = some d := by simp [Pc.closing]

structure Beside (cfg : Config) (s s₁ : State) : Prop where
  pc : s₁.pc = s.pc := by rfl
  lock : s₁.pdmaLock = s.pdmaLock := by rfl
  wting : s₁.wtingDomuId = s.wtingDomuId := by rfl
  message : ∀ e, message cfg e s₁.trace = message cfg e s.trace := by exact fun _ => rfl

theorem Owned.goto (h : Owned cfg s) (hb : Beside cfg s s₁) {pc pc' : Pc} (hpc : s.pc d = pc)
    (ha : Allowed cfg s d pc pc') (hholds : pc'.holds → pc.holds := by simp [Pc.holds]) :
    Owned cfg (s₁.goto d pc') := by
  subst hpc
  refine h.advance (d := d) {
    pc := fun e he => by rw [goto_pc_of_ne _ _ _ he, hb.pc]
    lock := .inl hb.lock
    wting := .inl hb.wting
    message := fun e _ => hb.message e
    closing := by simpa using ha.closing } ?_
  exact {
    lock := by
      rw [goto_pc_self]
      exact fun hpc' => hb.lock.trans ((h d).lock (hholds hpc'))
    claim := by
      rw [goto_pc_self]
      exact fun req hclaim => hb.wting.trans (ha.claim req hclaim)
    stay := by
      rw [goto_pc_self]
      exact ha.stay
    owner := by
      rw [goto_pc_self]
      exact fun howns => hb.wting.trans (ha.owner howns)
    ended := by
      rw [goto_pc_self]
      exact fun hended => (hb.message d).trans (ha.ended hended)
    opened := by
      intro hopen
      rw [goto_trace, hb.message] at hopen
      obtain ⟨hown, hclosing⟩ := (h d).opened hopen
      refine ⟨hb.wting.trans hown, fun e he => ?_⟩
      rw [goto_pc_of_ne _ _ _ he, hb.pc]
      exact hclosing e he }

theorem message_snoc (cfg : Config) (e : Dom) (trace : List Event) (ev : Event) :
    message cfg e (trace ++ [ev]) = match ev.opOf e with
      | some o => (message cfg e trace).next cfg.wtBlockSz.toNat o
      | none => message cfg e trace := by
  rw [message, List.filterMap_append, List.foldl_append]
  cases h : ev.opOf e <;> simp [h, message]

theorem message_of_opOf {e : Dom} {trace : List Event} {ev : Event} (h : ev.opOf e = none) :
    message cfg e (trace ++ [ev]) = message cfg e trace := by
  rw [message_snoc, h]

theorem message_op_self (trace : List Event) (o : DevOp) :
    message cfg d (trace ++ [.op d o]) = (message cfg d trace).next cfg.wtBlockSz.toNat o := by
  rw [message_snoc]
  simp [Event.opOf]

theorem message_op_of_ne {e : Dom} (h : e ≠ d) (trace : List Event) (o : DevOp) :
    message cfg e (trace ++ [.op d o]) = message cfg e trace :=
  message_of_opOf (by simp [Event.opOf, h.symm])

def DevOp.neutral : DevOp → Bool
  | .write _ | .read _ _ => false
  | _ => true

theorem next_of_neutral {o : DevOp} (h : o.neutral) (blockSz : Nat) (m : Message) :
    m.next blockSz o = m := by
  cases o <;> cases m <;> first | rfl | cases h

theorem Owned.call (h : Owned cfg s) {pc pc' : Pc} {o : DevOp} (ho : o.neutral) (hpc : s.pc d = pc)
    (ha : Allowed cfg s d pc pc') (hholds : pc'.holds → pc.holds := by simp [Pc.holds]) :
    Owned cfg (s.call d o pc') := by
  unfold State.call
  split
  · refine h.goto { message := fun e => ?_ } hpc ha hholds
    rcases eq_or_ne e d with rfl | he
    · exact (message_op_self s.trace o).trans (next_of_neutral ho _ _)
    · exact message_op_of_ne he s.trace o
  · exact h.goto {} hpc {}

theorem Owned.lockThen (h : Owned cfg s) {pc pc' : Pc} (hpc : s.pc d = pc)
    (ha : Allowed cfg s d pc pc') : Owned cfg (s.lockThen d pc') := by
  subst hpc
  unfold State.lockThen
  split
  · next hnone =>
    refine h.advance (d := d) {
      pc := fun e he => goto_pc_of_ne _ _ _ he
      lock := .inr (.inl hnone)
      wting := .inl rfl
      message := fun _ _ => rfl
      closing := by simpa using ha.closing } ?_
    exact {
      lock := fun _ => rfl
      claim := by simpa using ha.claim
      stay := by simpa using ha.stay
      owner := by simpa using ha.owner
      ended := by simpa using ha.ended
      opened := by
        intro hopen
        obtain ⟨hown, hclosing⟩ := (h d).opened hopen
        refine ⟨hown, fun e he => ?_⟩
        rw [goto_pc_of_ne _ _ _ he]
        exact hclosing e he }
  · exact h

theorem Owned.unlock (h : Owned cfg s) {pc pc' : Pc} (hpc : s.pc d = pc) (hlock : pc.holds)
    (ha : Allowed cfg s d pc pc') (hholds : pc'.holds = false) :
    Owned cfg ((s.unlock d).goto d pc') := by
  subst hpc
  have hmsg : ∀ e, message cfg e (s.trace ++ [.unlock d s.pdmaLock]) = message cfg e s.trace :=
    fun e => message_of_opOf rfl
  refine h.advance (d := d) {
    pc := fun e he => goto_pc_of_ne _ _ _ he
    lock := .inr (.inr ((h d).lock hlock))
    wting := .inl rfl
    message := fun e _ => hmsg e
    closing := by simpa using ha.closing } ?_
  exact {
    lock := by simp [hholds]
    claim := by
      rw [goto_pc_self]
      exact ha.claim
    stay := by simpa using ha.stay
    owner := by
      rw [goto_pc_self]
      exact ha.owner
    ended := by
      rw [goto_pc_self]
      exact fun hended => (hmsg d).trans (ha.ended hended)
    opened := by
      intro hopen
      obtain ⟨hown, hclosing⟩ := (h d).opened ((hmsg d).symm.trans_ne hopen)
      refine ⟨hown, fun e he => ?_⟩
      rw [goto_pc_of_ne _ _ _ he]
      exact hclosing e he }

theorem Owned.claim (h : Owned cfg s) {req : Request} (hpc : s.pc d = .write req .claim) :
    Owned cfg ({ s with wtingDomuId := some d }.goto d (.write req .ownTest)) := by
  have hnone := (h d).claim req hpc
  have hlock := (h d).lock (by rw [hpc]; rfl)
  refine h.advance (d := d) {
    pc := fun e he => goto_pc_of_ne _ _ _ he
    lock := .inl rfl
    wting := .inr (.inl ⟨hnone, hlock⟩)
    message := fun _ _ => rfl
    closing := by simp [Pc.closing] } ?_
  exact {
    lock := fun _ => hlock
    claim := by simp
    stay := by simp
    owner := by simp [Pc.owning]
    ended := by simp [Pc.ended, Pc.closing]
    opened := by
      intro hopen
      rw [((h d).opened hopen).1] at hnone
      cases hnone }

theorem Owned.release (h : Owned cfg s) {req : Request} (hpc : s.pc d = .read req .release) :
    Owned cfg ({ s with wtingDomuId := none }.goto d (.read req .active)) := by
  have hown := (h d).owner (by rw [hpc]; rfl)
  have hclosed := (h d).ended (by rw [hpc]; rfl)
  refine h.advance (d := d) {
    pc := fun e he => goto_pc_of_ne _ _ _ he
    lock := .inl rfl
    wting := .inr (.inr hown)
    message := fun _ _ => rfl
    closing := fun _ => .inr hown } ?_
  exact {
    lock := by simp [Pc.holds]
    claim := by simp
    stay := by simp
    owner := by simp [Pc.owning]
    ended := fun _ => hclosed
    opened := fun hopen => absurd hclosed hopen }

theorem Owned.block (h : Owned cfg s) {pc pc' : Pc} {o : DevOp} (hpc : s.pc d = pc)
    (hown : s.wtingDomuId = some d)
    (hclosing : (message cfg d s.trace).next cfg.wtBlockSz.toNat o ≠ .closed →
      ∀ e, e ≠ d → (s.pc e).closing = false)
    (ha : Allowed cfg s d pc pc') (hended : pc'.ended = false := by rfl)
    (hholds : pc'.holds → pc.holds := by simp [Pc.holds]) : Owned cfg (s.call d o pc') := by
  subst hpc
  unfold State.call
  split
  · refine h.advance (d := d) {
      pc := fun e he => goto_pc_of_ne _ _ _ he
      lock := .inl rfl
      wting := .inl rfl
      message := fun e he => message_op_of_ne he s.trace o
      closing := by simpa using ha.closing } ?_
    exact {
      lock := by
        rw [goto_pc_self]
        exact fun hpc' => (h d).lock (hholds hpc')
      claim := by
        rw [goto_pc_self]
        exact ha.claim
      stay := by simpa using ha.stay
      owner := fun _ => hown
      ended := by simp [hended]
      opened := by
        intro hopen
        refine ⟨hown, fun e he => ?_⟩
        rw [goto_pc_of_ne _ _ _ he]
        exact hclosing ((message_op_self s.trace o).symm.trans_ne hopen) e he }
  · exact h.goto {} rfl {}

/-! ## Steps -/

theorem Owned.writeStep (h : Owned cfg s) (env : Env) {req : Request} {pc : WritePc}
    (hpc : s.pc d = .write req pc) (hc : Orderly cfg s (.run d env)) :
    Owned cfg (s.writeStep cfg d env req pc) := by
  have hown : (Pc.write req pc).owning → s.wtingDomuId = some d := by
    rw [← hpc]
    exact (h d).owner
  have hturn := hc.turn
  simp only [inTurn, hpc] at hturn
  cases pc with
  | lock => exact h.lockThen hpc {}
  | ownerTest =>
    simp only [State.writeStep]
    split
    · next hnone => exact h.goto {} hpc { claim := fun _ _ => hnone }
    · exact h.goto {} hpc {}
  | claim => exact h.claim hpc
  | ownTest =>
    simp only [State.writeStep]
    split
    · next hsome => exact h.goto {} hpc { owner := fun _ => hsome }
    · exact h.goto {} hpc {}
  | clearWs => exact h.goto {} hpc {}
  | unlockWait => exact h.unlock hpc rfl {} rfl
  | waitTest =>
    have hws : s.writePdmaWs = false := by simpa using hturn
    simp only [State.writeStep, hws, Bool.false_eq_true, if_false]
    exact h.goto {} hpc {}
  | prepare => exact h.goto {} hpc {}
  | waitRetest =>
    have hws : s.writePdmaWs = false := by simpa using hturn
    simp only [State.writeStep, hws, Bool.false_eq_true, if_false]
    exact h.goto {} hpc {}
  | asleep =>
    simp only [State.writeStep]
    split
    · exact h
    · exact h.goto {} hpc {}
  | takeOver => exact absurd hpc ((h d).stay req)
  | resetTest =>
    simp only [State.writeStep]
    split
    · exact h.goto {} hpc { owner := fun _ => hown rfl }
    · exact h.goto {} hpc { owner := fun _ => hown rfl }
  | reset => exact h.call rfl hpc { owner := fun _ => hown rfl }
  | lenTest =>
    simp only [State.writeStep]
    split
    · exact h.goto {} hpc { owner := fun _ => hown rfl }
    · exact h.goto {} hpc { owner := fun _ => hown rfl }
  | lenReg => exact h.call rfl hpc { owner := fun _ => hown rfl }
  | block =>
    have hclosing : ∀ e, e ≠ d → (s.pc e).closing = false := by
      intro e he
      by_cases hmsg : message cfg d s.trace = .closed
      · exact hc.begins (by rw [hpc]; rfl) hmsg e he
      · exact ((h d).opened hmsg).2 e he
    simp only [State.writeStep]
    cases env.ok with
    | true => exact h.block hpc (hown rfl) (fun _ => hclosing) {}
    | false => exact h.block hpc (hown rfl) (fun _ => hclosing) {}
  | account => exact h.goto {} hpc {}
  | respond => exact h.goto { message := fun _ => message_of_opOf rfl } hpc {}
  | finish =>
    simp only [State.writeStep]
    split
    · exact h.goto {} hpc {}
    · exact h.goto {} hpc {}
  | clear => exact h.goto {} hpc {}
  | unlock => exact h.unlock hpc rfl {} rfl

theorem Owned.readStep (h : Owned cfg s) (env : Env) {req : Request} {pc : ReadPc}
    (hpc : s.pc d = .read req pc) (hc : Orderly cfg s (.run d env)) :
    Owned cfg (s.readStep cfg d env req pc) := by
  have hown : (Pc.read req pc).owning → s.wtingDomuId = some d := by
    rw [← hpc]
    exact (h d).owner
  have hended : (Pc.read req pc).ended → message cfg d s.trace = .closed := by
    rw [← hpc]
    exact (h d).ended
  have hturn := hc.turn
  simp only [inTurn, hpc] at hturn
  cases pc with
  | regTest =>
    simp only [State.readStep]
    split
    · exact h.goto {} hpc { owner := fun _ => hown rfl }
    · exact h.goto {} hpc { owner := fun _ => hown rfl }
  | reg => exact h.call rfl hpc { owner := fun _ => hown rfl }
  | block val =>
    have hclosing : (message cfg d s.trace).next cfg.wtBlockSz.toNat (.read val env.ok) ≠ .closed →
        ∀ e, e ≠ d → (s.pc e).closing = false := by
      intro hopen
      have hmsg : message cfg d s.trace ≠ .closed := by
        intro hclosed
        rw [hclosed] at hopen
        exact hopen rfl
      exact ((h d).opened hmsg).2
    simp only [State.readStep]
    split
    · exact h.block hpc (hown rfl) hclosing { owner := fun _ => hown rfl }
    · exact h.block hpc (hown rfl) hclosing {}
  | respond val =>
    exact h.goto { message := fun _ => message_of_opOf rfl } hpc { owner := fun _ => hown rfl }
  | account val => exact h.goto {} hpc { owner := fun _ => hown rfl }
  | finish val =>
    simp only [State.readStep]
    split
    · next hle =>
      have hclosed : message cfg d s.trace = .closed := by
        rcases Bool.or_eq_true_iff.mp hturn with hclosed | hlt
        · exact eq_of_beq hclosed
        · rw [decide_eq_true_iff, UInt32.lt_iff_toNat_lt] at hlt
          rw [UInt32.le_iff_toNat_le] at hle
          omega
      exact h.goto {} hpc { owner := fun _ => hown rfl, ended := fun _ => hclosed }
    · exact h.goto {} hpc {}
  | clear =>
    exact h.goto {} hpc { owner := fun _ => hown rfl, ended := fun _ => hended rfl }
  | release => exact h.release hpc
  | active =>
    simp only [State.readStep]
    split
    · exact h.goto {} hpc { ended := fun _ => hended rfl, closing := fun _ => .inl rfl }
    · exact h.goto {} hpc { ended := fun _ => hended rfl, closing := fun _ => .inl rfl }
  | setWs => exact h.goto {} hpc { ended := fun _ => hended rfl, closing := fun _ => .inl rfl }
  | wake => exact h.goto {} hpc { ended := fun _ => hended rfl, closing := fun _ => .inl rfl }
  | reset => exact h.call rfl hpc {}

theorem Owned.threadStep (h : Owned cfg s) (env : Env) (hc : Orderly cfg s (.run d env)) :
    Owned cfg (s.threadStep cfg d env) := by
  unfold State.threadStep
  cases hpc : s.pc d with
  | idle => exact h
  | dead => exact h
  | openCount req =>
    simp only
    split
    · exact h.goto {} hpc {}
    · exact h.goto {} hpc {}
  | openFile req => exact h.goto {} hpc {}
  | closeCount req =>
    simp only
    split
    · exact h.goto {} hpc {}
    · exact h.goto {} hpc {}
  | closeFile req => exact h.goto {} hpc {}
  | write req pc => exact h.writeStep env hpc hc
  | read req pc => exact h.readStep env hpc hc
  | ioctlLock req => exact h.lockThen hpc {}
  | ioctlStat req => exact h.call rfl hpc {}
  | ioctlRespond req => exact h.goto { message := fun _ => message_of_opOf rfl } hpc {}
  | ioctlUnlock => exact h.unlock hpc rfl {} rfl
  | respond req => exact h.goto { message := fun _ => message_of_opOf rfl } hpc {}

theorem Owned.takeStep (h : Owned cfg s) {req : Request} (hc : Orderly cfg s (.take d req)) :
    Owned cfg (s.takeStep d req) := by
  unfold State.takeStep
  split
  · next hpc =>
    have hlog : Beside cfg s (s.log (.take d req)) := { message := fun _ => message_of_opOf rfl }
    unfold State.begin
    cases hop : req.operation with
    | read =>
      have hown : s.wtingDomuId = some d := by simpa [inTurn, hop] using hc.turn
      exact h.goto hlog hpc { owner := fun _ => hown }
    | _ => exact h.goto hlog hpc {}
  · exact h

theorem Owned.step (h : Owned cfg s) {l : Label} (hc : Orderly cfg s l)
    (hstep : step cfg s l = some s') : Owned cfg s' := by
  cases l with
  | take d req =>
    cases hstep
    exact h.takeStep hc
  | run d env =>
    cases hstep
    exact h.threadStep env hc

/-! ## What the trace gains -/

/-- What a step of `d` may add to the trace. -/
inductive Logs (s : State) (d : Dom) : Event → Prop where
  | op (o : DevOp) (working : o.exclusive → (s.pc d).owning ∨ (s.pc d).closing) :
    Logs s d (.op d o)
  | response (resp : Response) : Logs s d (.response d resp)
  | unlock (holds : (s.pc d).holds) : Logs s d (.unlock d s.pdmaLock)
  | take (req : Request) : Logs s d (.take d req)

def Gains (s s' : State) (d : Dom) : Prop :=
  s'.trace = s.trace ∨ ∃ ev, s'.trace = s.trace ++ [ev] ∧ Logs s d ev

theorem call_gains {o : DevOp} {pc pc' : Pc} (hpc : s.pc d = pc)
    (ho : o.exclusive → pc.owning ∨ pc.closing) : Gains s (s.call d o pc') d := by
  subst hpc
  unfold State.call
  split
  · exact .inr ⟨_, rfl, .op o ho⟩
  · exact .inl rfl

theorem lockThen_gains {pc' : Pc} : Gains s (s.lockThen d pc') d := by
  unfold State.lockThen
  split <;> exact .inl rfl

theorem unlock_gains {pc pc' : Pc} (hpc : s.pc d = pc) (hholds : pc.holds) :
    Gains s ((s.unlock d).goto d pc') d := by
  subst hpc
  exact .inr ⟨_, rfl, .unlock hholds⟩

theorem writeStep_gains (cfg : Config) (env : Env) {req : Request} {pc : WritePc}
    (hpc : s.pc d = .write req pc) : Gains s (s.writeStep cfg d env req pc) d := by
  cases pc with
  | lock => exact lockThen_gains
  | reset | lenReg | block => exact call_gains hpc fun _ => .inl rfl
  | respond => exact .inr ⟨_, rfl, .response _⟩
  | unlockWait | unlock => exact unlock_gains hpc rfl
  | waitRetest | asleep =>
    simp only [State.writeStep]
    split <;> exact .inl rfl
  | _ => exact .inl rfl

theorem readStep_gains (cfg : Config) (env : Env) {req : Request} {pc : ReadPc}
    (hpc : s.pc d = .read req pc) : Gains s (s.readStep cfg d env req pc) d := by
  cases pc with
  | reg | block => exact call_gains hpc fun _ => .inl rfl
  | reset => exact call_gains hpc fun _ => .inr rfl
  | respond => exact .inr ⟨_, rfl, .response _⟩
  | _ => exact .inl rfl

theorem threadStep_gains (cfg : Config) (s : State) (d : Dom) (env : Env) :
    Gains s (s.threadStep cfg d env) d := by
  unfold State.threadStep
  cases hpc : s.pc d with
  | write req pc => exact writeStep_gains cfg env hpc
  | read req pc => exact readStep_gains cfg env hpc
  | ioctlLock req => exact lockThen_gains
  | ioctlStat req => exact call_gains hpc fun h => nomatch h
  | ioctlUnlock => exact unlock_gains hpc rfl
  | ioctlRespond | respond => exact .inr ⟨_, rfl, .response _⟩
  | _ => exact .inl rfl

theorem takeStep_gains (s : State) (d : Dom) (req : Request) : Gains s (s.takeStep d req) d := by
  unfold State.takeStep
  split
  · exact .inr ⟨_, rfl, .take req⟩
  · exact .inl rfl

theorem Owned.alone (h : Owned cfg s) (hd : (s.pc d).owning ∨ (s.pc d).closing) {e : Dom}
    (he : e ≠ d) : message cfg e s.trace = .closed := by
  by_contra hopen
  obtain ⟨hown, hclosing⟩ := (h e).opened hopen
  rcases hd with hd | hd
  · rw [(h d).owner hd] at hown
    exact he (Option.some.inj hown).symm
  · rw [hclosing d he.symm] at hd
    cases hd

theorem Exclusive.snoc {trace : List Event} {ev : Event} (h : Exclusive cfg trace)
    (hop : ∀ d o, ev = .op d o → o.exclusive → ∀ e, e ≠ d → message cfg e trace = .closed)
    (hunlock : ∀ d holder, ev = .unlock d holder → holder = some d) :
    Exclusive cfg (trace ++ [ev]) where
  device before d o after heq ho := by
    rcases List.eq_nil_or_concat after with rfl | ⟨after, last, rfl⟩
    · obtain ⟨rfl, hev⟩ := List.append_inj' heq rfl
      exact hop d o (List.singleton_inj.mp hev) ho
    · rw [List.concat_eq_append, ← List.cons_append, ← List.append_assoc] at heq
      exact h.device before d o after (List.append_inj' heq rfl).1 ho
  lock d holder hmem := by
    rcases List.mem_append.mp hmem with hmem | hmem
    · exact h.lock d holder hmem
    · exact hunlock d holder (List.mem_singleton.mp hmem).symm

theorem Exclusive.gains (hx : Exclusive cfg s.trace) (h : Owned cfg s) (hg : Gains s s' d) :
    Exclusive cfg s'.trace := by
  rcases hg with heq | ⟨ev, heq, hev⟩
  · rw [heq]
    exact hx
  · rw [heq]
    cases hev with
    | op o working =>
      refine hx.snoc ?_ fun _ _ hev => nomatch hev
      intro d' o' hev ho e he
      cases hev
      exact h.alone (working ho) he
    | unlock holds =>
      refine hx.snoc (fun _ _ hev => nomatch hev) ?_
      intro d' holder hev
      cases hev
      exact (h d).lock holds
    | response resp => exact hx.snoc (fun _ _ hev => nomatch hev) fun _ _ hev => nomatch hev
    | take req => exact hx.snoc (fun _ _ hev => nomatch hev) fun _ _ hev => nomatch hev

theorem Exclusive.step (hx : Exclusive cfg s.trace) (h : Owned cfg s) {l : Label}
    (hstep : step cfg s l = some s') : Exclusive cfg s'.trace := by
  cases l with
  | take d req =>
    cases hstep
    exact hx.gains h (takeStep_gains s d req)
  | run d env =>
    cases hstep
    exact hx.gains h (threadStep_gains cfg s d env)

end

theorem owned_init (cfg : Config) : Owned cfg {} := fun _ => {
  lock := fun h => nomatch h
  claim := fun _ h => nomatch h
  stay := fun _ h => nomatch h
  owner := fun h => nomatch h
  ended := fun h => nomatch h
  opened := fun h => absurd rfl h }

/-- Session exclusion in every orderly run. -/
theorem session_exclusion (cfg : Config) (ls : List Label)
    (hls : Along (step cfg) (Orderly cfg) {} ls) :
    ∃ t, exec (step cfg) {} ls = some t ∧ Exclusive cfg t.trace := by
  obtain ⟨t, hrun⟩ := exec_total (step_total cfg) {} ls
  have hinv : Owned cfg t ∧ Exclusive cfg t.trace :=
    invariant_along (I := fun s => Owned cfg s ∧ Exclusive cfg s.trace)
      (fun h hc hstep => ⟨h.1.step hc hstep, h.2.step h.1 hstep⟩)
      ⟨owned_init cfg, ⟨fun before d o after h => by simp at h, fun _ _ h => nomatch h⟩⟩ hls hrun
  exact ⟨t, hrun, hinv.2⟩

def beginsAmong (cfg : Config) (ds : List Dom) (s : State) : Label → Bool
  | .take _ _ => true
  | .run d _ => !(s.pc d).writing || message cfg d s.trace != .closed ||
      ds.all fun e => e == d || !(s.pc e).closing

/-- A DomU that never moves is in nobody's way. -/
theorem orderly_of_few {cfg : Config} (ds : List Dom) {ls : List Label}
    (h : Along (step cfg) (fun s l => l.dom ∈ ds ∧ inTurn cfg s l ∧ beginsAmong cfg ds s l) {} ls) :
    Along (step cfg) (Orderly cfg) {} ls := by
  refine along_of_invariant (I := fun s => ∀ e, e ∉ ds → s.pc e = .idle) ?_ ?_ (fun _ _ => rfl) h
  · intro s l t hidle hl hstep e he
    have hne : e ≠ l.dom := by
      rintro rfl
      exact he hl.1
    rw [step_pc_of_ne hstep hne]
    exact hidle e he
  · intro s l hidle hl
    refine ⟨hl.2.1, ?_⟩
    cases l with
    | take d req => trivial
    | run d env =>
      intro hwriting hclosed e he
      by_cases hmem : e ∈ ds
      · have hamong := hl.2.2
        simp only [beginsAmong, hwriting, hclosed, Bool.not_true, bne_self_eq_false, Bool.or_self,
          Bool.false_or, List.all_eq_true] at hamong
        simpa [he] using hamong e hmem
      · rw [hidle e hmem]
        rfl

theorem session_exclusion_two :
    ∃ t, exec (step ⟨4096⟩) {} (serve 1 .opOpen 0 3 {} ++ serve 1 .write 8 14 {} ++
      serve 1 .read 0 10 { reg := some 8 } ++ serve 2 .write 8 14 {} ++
      serve 2 .read 0 10 { reg := some 8 }) = some t ∧ Exclusive ⟨4096⟩ t.trace :=
  session_exclusion _ _ (orderly_of_few [1, 2] (by decide +kernel))

def twoWaiters : List Label :=
  serve 1 .opOpen 0 3 {} ++ serve 1 .write 8 14 {} ++ serve 2 .write 8 8 {} ++
    serve 3 .write 8 8 {} ++ serve 1 .read 0 12 { reg := some 8 } ++
    List.replicate 9 (.run 2 {}) ++ List.replicate 6 (.run 3 {})

theorem waiters_not_excluded :
    ∃ t, exec (step ⟨4096⟩) {} twoWaiters = some t ∧ ¬Exclusive ⟨4096⟩ t.trace := by
  refine exists_end_view _ (fun t => (t.trace.getLast?, message ⟨4096⟩ 2 t.trace.dropLast))
    (v := (some (.op 3 (.regWrite 1)), .written)) (by decide +kernel) fun t _ hv hx => ?_
  simp only [Prod.mk.injEq] at hv
  obtain ⟨hlast, hmsg⟩ := hv
  have htrace : t.trace = t.trace.dropLast ++ [.op 3 (.regWrite 1)] :=
    (List.dropLast_append_getLast? _ hlast).symm
  have hclosed := hx.device _ 3 _ [] htrace rfl 2 (by decide)
  rw [hmsg] at hclosed
  cases hclosed

end PdmaXen.Dom0
