import PdmaXen.Pool
import PdmaXen.Pdma.Moves

/-!
# Where a call goes

The control flow of `pdma_read` and `pdma_write`, with what the branches look at
and what becomes of `rw_cnt`. A call is inside between its two atomic operations
on `rw_cnt`, and past the gate once it has seen `dma_enable` set.
-/

namespace PdmaXen.Pdma
set_option autoImplicit false
open Pool

def RdPc.inside : RdPc → Bool
  | idle | start | bounceCopy | bounceClear | bounceBump | enter => false
  | _ => true

def RdPc.passed : RdPc → Bool
  | checkEnable | exit _ => false
  | pc => pc.inside

def WtPc.inside : WtPc → Bool
  | idle | enter => false
  | _ => true

def WtPc.passed : WtPc → Bool
  | checkEnable | exit _ => false
  | pc => pc.inside

theorem RdPc.inside_mapWait (f : Wait → Wait) (pc : RdPc) : (pc.mapWait f).inside = pc.inside := by
  cases pc <;> rfl

theorem WtPc.inside_mapWait (f : Wait → Wait) (pc : WtPc) : (pc.mapWait f).inside = pc.inside := by
  cases pc <;> rfl

theorem RdPc.passed_mapWait (f : Wait → Wait) (pc : RdPc) : (pc.mapWait f).passed = pc.passed := by
  cases pc <;> rfl

theorem WtPc.passed_mapWait (f : Wait → Wait) (pc : WtPc) : (pc.mapWait f).passed = pc.passed := by
  cases pc <;> rfl

theorem RdPc.mapWait_id (pc : RdPc) : pc.mapWait id = pc := by
  cases pc <;> rfl

theorem WtPc.mapWait_id (pc : WtPc) : pc.mapWait id = pc := by
  cases pc <;> rfl

theorem RdPc.passed_of_not_inside {pc : RdPc} (h : pc.inside = false) : pc.passed = false := by
  cases pc <;> simp_all [inside, passed]

theorem WtPc.passed_of_not_inside {pc : WtPc} (h : pc.inside = false) : pc.passed = false := by
  cases pc <;> simp_all [inside, passed]

theorem RdPc.held_of_not_passed {pc : RdPc} (h : pc.passed = false) : pc.held = none := by
  cases pc <;> simp_all [inside, passed, held]

theorem WtPc.held_of_not_passed {pc : WtPc} (h : pc.passed = false) : pc.held = none := by
  cases pc <;> simp_all [inside, passed, held]

/-- A step takes a `pdma_read` of size `count` from one place to the next and
leaves `rw_cnt` at the last index. -/
inductive RdNext (g : Geometry) (d : Dev) (count : Nat) : RdPc → RdPc → Int → Prop where
  | idle : RdNext g d count .idle .idle d.rwCnt
  | bounce : RdNext g d count .start .bounceCopy d.rwCnt
  | start : RdNext g d count .start .enter d.rwCnt
  | bounceCopy : RdNext g d count .bounceCopy .bounceClear d.rwCnt
  | bounceClear : RdNext g d count .bounceClear .bounceBump d.rwCnt
  | bounceBump : RdNext g d count .bounceBump .idle d.rwCnt
  | enter : RdNext g d count .enter .checkEnable (d.rwCnt + 1)
  | enabled (on : d.dmaEnable = true) : RdNext g d count .checkEnable .checkSize d.rwCnt
  | sized (size : count = g.rdBufSize) : RdNext g d count .checkSize .tryRead d.rwCnt
  | take (pc : RdPc) (b : Buf) (src : pc = .tryRead ∨ pc = .relock) :
      RdNext g d count pc (.copyBounce b) d.rwCnt
  | empty (pc : RdPc) (src : pc = .tryRead ∨ pc = .relock) : RdNext g d count pc .prepare d.rwCnt
  | copyBounce (b : Buf) : RdNext g d count (.copyBounce b) (.bump b) d.rwCnt
  | bump (b : Buf) : RdNext g d count (.bump b) (.copyUser b) d.rwCnt
  | copied (b : Buf) : RdNext g d count (.copyUser b) (.release b) d.rwCnt
  | fault (b : Buf) : RdNext g d count (.copyUser b) (.requeue b) d.rwCnt
  | release (b : Buf) : RdNext g d count (.release b) .submit d.rwCnt
  | prepare : RdNext g d count .prepare (.prepared {}) d.rwCnt
  | sleep (w : Wait) (empty : d.rd.pending = []) :
      RdNext g d count (.prepared w) (.asleep w) d.rwCnt
  | filled (w : Wait) : RdNext g d count (.prepared w) .finish d.rwCnt
  | asleep (w : Wait) : RdNext g d count (.asleep w) (.asleep w) d.rwCnt
  | woken (w : Wait) : RdNext g d count (.asleep w) .finish d.rwCnt
  | relock : RdNext g d count .finish .relock d.rwCnt
  | leave (pc : RdPc) (ret : Int) (src : pc.inside = true) : RdNext g d count pc (.exit ret) d.rwCnt
  | exit (ret : Int) : RdNext g d count (.exit ret) .idle (d.rwCnt - 1)

inductive WtNext (g : Geometry) (d : Dev) (count : Nat) : WtPc → WtPc → Int → Prop where
  | idle : WtNext g d count .idle .idle d.rwCnt
  | enter : WtNext g d count .enter .checkEnable (d.rwCnt + 1)
  | enabled (on : d.dmaEnable = true) : WtNext g d count .checkEnable .checkSize d.rwCnt
  | sized (size : count = g.wtBufSize) : WtNext g d count .checkSize .tryWrite d.rwCnt
  | take (pc : WtPc) (b : Buf) (src : pc = .tryWrite ∨ pc = .relock) :
      WtNext g d count pc (.copyUser b) d.rwCnt
  | empty (pc : WtPc) (src : pc = .tryWrite ∨ pc = .relock) : WtNext g d count pc .prepare d.rwCnt
  | copied (b : Buf) : WtNext g d count (.copyUser b) (.commit b) d.rwCnt
  | fault (b : Buf) : WtNext g d count (.copyUser b) (.requeue b) d.rwCnt
  | prepare : WtNext g d count .prepare (.prepared {}) d.rwCnt
  | sleep (w : Wait) (empty : d.wt.free = []) : WtNext g d count (.prepared w) (.asleep w) d.rwCnt
  | filled (w : Wait) : WtNext g d count (.prepared w) .finish d.rwCnt
  | asleep (w : Wait) : WtNext g d count (.asleep w) (.asleep w) d.rwCnt
  | woken (w : Wait) : WtNext g d count (.asleep w) .finish d.rwCnt
  | relock : WtNext g d count .finish .relock d.rwCnt
  | leave (pc : WtPc) (ret : Int) (src : pc.inside = true) : WtNext g d count pc (.exit ret) d.rwCnt
  | exit (ret : Int) : WtNext g d count (.exit ret) .idle (d.rwCnt - 1)

section
variable {g : Geometry} {d : Dev} {count : Nat} {n : Int}

theorem RdNext.tick {pc pc' : RdPc} (h : RdNext g d count pc pc' n) :
    Tick pc.inside pc'.inside d.rwCnt n := by
  cases h with
  | enter => exact .enter ..
  | exit => exact .leave ..
  | take b pc src | empty pc src => rcases src with rfl | rfl <;> exact .stay ..
  | leave pc ret src =>
    rw [src]
    exact .stay ..
  | _ => exact .stay ..

theorem WtNext.tick {pc pc' : WtPc} (h : WtNext g d count pc pc' n) :
    Tick pc.inside pc'.inside d.rwCnt n := by
  cases h with
  | enter => exact .enter ..
  | exit => exact .leave ..
  | take b pc src | empty pc src => rcases src with rfl | rfl <;> exact .stay ..
  | leave pc ret src =>
    rw [src]
    exact .stay ..
  | _ => exact .stay ..

theorem RdNext.passed {pc pc' : RdPc} (h : RdNext g d count pc pc' n) (hoff : d.dmaEnable = false)
    (hp : pc.passed = false) : pc'.passed = false := by
  cases h with
  | enabled on => simp [hoff] at on
  | take b pc src | empty pc src => rcases src with rfl | rfl <;> cases hp
  | leave pc ret src => rfl
  | idle | bounce | start | bounceCopy | bounceClear | bounceBump | enter | exit => rfl
  | _ => cases hp

theorem WtNext.passed {pc pc' : WtPc} (h : WtNext g d count pc pc' n) (hoff : d.dmaEnable = false)
    (hp : pc.passed = false) : pc'.passed = false := by
  cases h with
  | enabled on => simp [hoff] at on
  | take b pc src | empty pc src => rcases src with rfl | rfl <;> cases hp
  | leave pc ret src => rfl
  | idle | enter | exit => rfl
  | _ => cases hp

end

namespace Dev
variable {g : Geometry} {d d' : Dev} {p : Pid}

theorem setRd_readers_self (d : Dev) (p : Pid) (pc : RdPc) : ((d.setRd p pc).readers p).pc = pc := by
  simp [setRd]

theorem setWt_writers_self (d : Dev) (p : Pid) (pc : WtPc) : ((d.setWt p pc).writers p).pc = pc := by
  simp [setWt]

structure RdStepped (g : Geometry) (d : Dev) (p : Pid) (d' : Dev) : Prop where
  next : RdNext g d (d.readers p).count (d.readers p).pc (d'.readers p).pc d'.rwCnt
  count : (d'.readers p).count = (d.readers p).count
  others : ∀ q, q ≠ p → d'.readers q = d.readers q

structure WtStepped (g : Geometry) (d : Dev) (p : Pid) (d' : Dev) : Prop where
  next : WtNext g d (d.writers p).count (d.writers p).pc (d'.writers p).pc d'.rwCnt
  others : ∀ q, q ≠ p → d'.writers q = d.writers q

theorem RdStepped.setRd {e : Dev} {pc : RdPc} (hothers : ∀ q, q ≠ p → e.readers q = d.readers q)
    (hcount : (e.readers p).count = (d.readers p).count)
    (hnext : RdNext g d (d.readers p).count (d.readers p).pc pc e.rwCnt) :
    RdStepped g d p (e.setRd p pc) := by
  refine ⟨?_, ?_, fun q hq => ?_⟩
  · rw [setRd_readers_self]
    exact hnext
  · simpa [Dev.setRd] using hcount
  · simpa [Dev.setRd, Function.update_of_ne hq] using hothers q hq

theorem WtStepped.setWt {e : Dev} {pc : WtPc} (hothers : ∀ q, q ≠ p → e.writers q = d.writers q)
    (hnext : WtNext g d (d.writers p).count (d.writers p).pc pc e.rwCnt) :
    WtStepped g d p (e.setWt p pc) := by
  refine ⟨?_, fun q hq => ?_⟩
  · rw [setWt_writers_self]
    exact hnext
  · simpa [Dev.setWt, Function.update_of_ne hq] using hothers q hq

theorem tryRead_stepped (h : (d.readers p).pc = .tryRead ∨ (d.readers p).pc = .relock) :
    RdStepped g d p (d.tryRead p) := by
  unfold tryRead
  split
  · exact .setRd (fun _ _ => rfl) rfl (.take _ _ h)
  · refine .setRd (fun _ _ => rfl) rfl ?_
    split
    · exact .leave _ _ (by rcases h with h | h <;> rw [h] <;> rfl)
    · exact .empty _ h

theorem tryWrite_stepped (h : (d.writers p).pc = .tryWrite ∨ (d.writers p).pc = .relock) :
    WtStepped g d p (d.tryWrite p) := by
  unfold tryWrite
  split
  · exact .setWt (fun _ _ => rfl) (.take _ _ h)
  · refine .setWt (fun _ _ => rfl) ?_
    split
    · exact .leave _ _ (by rcases h with h | h <;> rw [h] <;> rfl)
    · exact .empty _ h

theorem gotBytes_readers_of_ne {q : Pid} (hq : q ≠ p) (d : Dev) (data : Bytes) :
    (d.gotBytes p data).readers q = d.readers q := by
  simp [gotBytes, Function.update_of_ne hq]

theorem gotBytes_count (d : Dev) (p : Pid) (data : Bytes) :
    ((d.gotBytes p data).readers p).count = (d.readers p).count := by
  simp [gotBytes]

theorem rdStep_stepped (g : Geometry) (bn : Bounce) (d : Dev) (p : Pid) (copyOk sig : Bool) :
    RdStepped g d p (d.rdStep g bn p copyOk sig).2 := by
  have hset : ∀ {pc}, RdNext g d (d.readers p).count (d.readers p).pc pc d.rwCnt →
      RdStepped g d p (d.setRd p pc) := .setRd (fun _ _ => rfl) rfl
  have htry := tryRead_stepped (g := g) (d := d) (p := p)
  unfold rdStep
  cases hpc : (d.readers p).pc <;> rw [hpc] at hset htry <;> dsimp only
  case idle => exact ⟨by rw [hpc]; exact .idle, rfl, fun _ _ => rfl⟩
  case start =>
    split
    · exact hset .bounce
    · exact hset .start
  case bounceCopy =>
    split
    · exact .setRd (fun q hq => gotBytes_readers_of_ne hq ..) (gotBytes_count ..)
        (by rw [hpc]; exact .bounceCopy)
    · exact hset .bounceCopy
  case bounceClear => exact hset .bounceClear
  case bounceBump => exact .setRd (fun _ _ => rfl) rfl (by rw [hpc]; exact .bounceBump)
  case enter => exact .setRd (fun _ _ => rfl) rfl (by rw [hpc]; exact .enter)
  case checkEnable =>
    split
    · rename_i hon
      exact hset (.enabled hon)
    · exact hset (.leave _ _ rfl)
  case checkSize =>
    split
    · rename_i hsize
      exact hset (.sized hsize)
    · exact hset (.leave _ _ rfl)
  case tryRead => exact htry (.inl rfl)
  case copyBounce b => exact hset (.copyBounce b)
  case bump b => exact hset (.bump b)
  case copyUser b =>
    split
    · exact .setRd (fun q hq => gotBytes_readers_of_ne hq ..) (gotBytes_count ..)
        (by rw [hpc]; exact .copied b)
    · exact hset (.fault b)
  case requeue b => exact .setRd (fun _ _ => rfl) rfl (by rw [hpc]; exact .leave _ _ rfl)
  case release b => exact .setRd (fun _ _ => rfl) rfl (by rw [hpc]; exact .release b)
  case submit =>
    obtain ⟨n, st, _, _, _, heq⟩ := tryToSubmitReadNolock_eq g d
    rw [heq]
    exact .setRd (fun _ _ => rfl) rfl (by rw [hpc]; exact .leave _ _ rfl)
  case prepare => exact hset .prepare
  case prepared w =>
    split
    · rename_i hempty
      exact hset (.sleep w hempty)
    · exact hset (.filled w)
  case asleep w =>
    split
    · exact hset (.woken w)
    · split
      · exact hset (.leave _ _ rfl)
      · exact ⟨by rw [hpc]; exact .asleep w, rfl, fun _ _ => rfl⟩
  case finish =>
    split
    · exact hset (.leave _ _ rfl)
    · exact hset .relock
  case relock =>
    split
    · exact htry (.inr rfl)
    · exact hset (.leave _ _ rfl)
  case exit ret => exact .setRd (fun _ _ => rfl) rfl (by rw [hpc]; exact .exit ret)

theorem wtStep_stepped (g : Geometry) (d : Dev) (p : Pid) (copied : Option Bytes) (sig : Bool) :
    WtStepped g d p (d.wtStep g p copied sig) := by
  have hset : ∀ {e : Dev} {pc}, e.writers = d.writers →
      WtNext g d (d.writers p).count (d.writers p).pc pc e.rwCnt →
      WtStepped g d p (e.setWt p pc) := fun hw => .setWt fun q _ => congrFun hw q
  have htry := tryWrite_stepped (g := g) (d := d) (p := p)
  unfold wtStep
  cases hpc : (d.writers p).pc <;> rw [hpc] at hset htry <;> dsimp only
  case idle => exact ⟨by rw [hpc]; exact .idle, fun _ _ => rfl⟩
  case enter => exact hset rfl .enter
  case checkEnable =>
    split
    · rename_i hon
      exact hset rfl (.enabled hon)
    · exact hset rfl (.leave _ _ rfl)
  case checkSize =>
    split
    · rename_i hsize
      exact hset rfl (.sized hsize)
    · exact hset rfl (.leave _ _ rfl)
  case tryWrite => exact htry (.inl rfl)
  case copyUser b =>
    split
    · exact hset rfl (.copied b)
    · exact hset rfl (.fault b)
  case requeue b => exact hset rfl (.leave _ _ rfl)
  case commit b =>
    unfold commitWrite
    split
    · exact hset rfl (.leave _ _ rfl)
    · split <;> exact hset rfl (.leave _ _ rfl)
  case prepare => exact hset rfl .prepare
  case prepared w =>
    split
    · rename_i hempty
      exact hset rfl (.sleep w hempty)
    · exact hset rfl (.filled w)
  case asleep w =>
    split
    · exact hset rfl (.woken w)
    · split
      · exact hset rfl (.leave _ _ rfl)
      · exact ⟨by rw [hpc]; exact .asleep w, fun _ _ => rfl⟩
  case finish =>
    split
    · exact hset rfl (.leave _ _ rfl)
    · exact hset rfl .relock
  case relock =>
    split
    · exact htry (.inr rfl)
    · exact hset rfl (.leave _ _ rfl)
  case exit ret => exact hset rfl (.exit ret)

/-- A handler touches no more of a call than its wait entry. -/
theorem IsrMove.waits {blks : List Bytes} {n : Nat} (hm : IsrMove g d p blks n d') :
    d'.rwCnt = d.rwCnt ∧ (∃ f, ∀ q, (d'.readers q).pc = (d.readers q).pc.mapWait f) ∧
      ∃ f, ∀ q, (d'.writers q).pc = (d.writers q).pc.mapWait f := by
  have hrd : ∀ q, (d.readers q).pc = (d.readers q).pc.mapWait id :=
    fun q => (RdPc.mapWait_id _).symm
  have hwt : ∀ q, (d.writers q).pc = (d.writers q).pc.mapWait id :=
    fun q => (WtPc.mapWait_id _).symm
  cases hm with
  | wakeRd _ _ eq =>
    subst eq
    exact ⟨rfl, ⟨_, fun _ => rfl⟩, ⟨id, hwt⟩⟩
  | wakeWt _ eq =>
    subst eq
    exact ⟨rfl, ⟨id, hrd⟩, ⟨_, fun _ => rfl⟩⟩
  | idle _ eq | off _ _ eq =>
    subst eq
    exact ⟨rfl, ⟨id, hrd⟩, ⟨id, hwt⟩⟩
  | notify _ _ _ _ _ _ _ _ _ _ _ _ _ _ _ _ _ _ eq =>
    subst eq
    exact ⟨rfl, ⟨id, hrd⟩, ⟨id, hwt⟩⟩

end Dev

end PdmaXen.Pdma
