import Mathlib.Data.List.Dedup
import PdmaXen.Dom0.Threads

/-!
# Who holds the device file open

`open_cnt` is to count the DomUs that hold the file, and the file to be there for them.
Counting and `filp_open` or `filp_close` are separate steps: an OPEN can be answered
while another one's `filp_open` is under way, and a `filp_close` can hit the file of a
new session. Nothing asks whether a CLOSE comes from somebody who holds the file.
-/

namespace PdmaXen.Dom0
set_option autoImplicit false
open Machine

/-- The back end and a record of who holds the file: an entry for each counted OPEN that
no counted CLOSE of its DomU has taken back. -/
structure Tracked where
  state : State
  holders : List Dom

namespace Tracked

def holdersAfter (s : Tracked) : Label → List Dom
  | .take .. => s.holders
  | .run d _ =>
    match s.state.pc d with
    | .openCount _ => d :: s.holders
    | .closeCount _ => s.holders.erase d
    | _ => s.holders

def step (cfg : Config) (s : Tracked) (l : Label) : Option Tracked :=
  (Dom0.step cfg s.state l).map fun t => ⟨t, s.holdersAfter l⟩

def guests (s : Tracked) : Nat := s.holders.dedup.length

end Tracked

def Pc.opensFile : Pc → Bool
  | .openFile _ => true
  | _ => false

def Pc.closesFile : Pc → Bool
  | .closeFile _ => true
  | _ => false

def Pc.answersOpen : Pc → Bool
  | .respond req => req.operation == .opOpen
  | _ => false

def Pc.isData : Pc → Bool
  | .write .. | .read .. | .ioctlLock _ | .ioctlStat _ | .ioctlRespond _ | .ioctlUnlock => true
  | _ => false

def Op.isData : Op → Bool
  | .read | .write | .ioctl => true
  | _ => false

def NoneAt (f : Pc → Bool) (s : State) : Prop := ∀ e, f (s.pc e) = false

/-- A DomU sends data operations only while it holds the file. Its requests are taken one
after the other, so its OPEN has been answered then. -/
def Polite (s : Tracked) : Label → Prop
  | .take d req => s.state.pc d = .idle → req.operation.isData = true → d ∈ s.holders
  | .run .. => True

/-- A CLOSE comes from a DomU that holds the file, no OPEN is answered while a `filp_open`
is under way, and a `filp_open` succeeds and is not made while a `filp_close` is. -/
def Matched (s : Tracked) : Label → Prop
  | .take d req => s.state.pc d = .idle → req.operation = .opClose → d ∈ s.holders
  | .run d env =>
    ((s.state.pc d).answersOpen = true → NoneAt Pc.opensFile s.state) ∧
      ((s.state.pc d).opensFile = true → env.ok = true ∧ NoneAt Pc.closesFile s.state)

/-- Nobody has used a file that was not open, and the counter counts the holders. Where no
`filp_open` and no `filp_close` is under way, the file is open for exactly the holders. -/
structure RefCounted (s : Tracked) : Prop where
  usable : ∀ d, s.state.pc d ≠ .dead
  count : s.state.openCnt = s.holders.length
  nonneg : 0 ≤ s.state.openCnt
  file : NoneAt Pc.opensFile s.state → NoneAt Pc.closesFile s.state →
    (s.state.chrifFilp = .opened ↔ s.holders ≠ [])

/-- A thread goes to open the file when the number of its holders goes from 0 to 1, and to
close it when that number goes from 1 to 0, and at no other time. -/
structure Transitions (s t : Tracked) : Prop where
  opens : (∃ d, (t.state.pc d).opensFile = true ∧ (s.state.pc d).opensFile = false) ↔
    s.guests = 0 ∧ t.guests = 1
  closes : (∃ d, (t.state.pc d).closesFile = true ∧ (s.state.pc d).closesFile = false) ↔
    s.guests = 1 ∧ t.guests = 0

/-! ## The invariant -/

structure Counting (s : Tracked) : Prop where
  count : s.state.openCnt = s.holders.length
  /-- while a `filp_open` is under way the other holders have not been answered -/
  opening : ∀ e, (s.state.pc e).opensFile = true →
    e ∈ s.holders ∧ ∀ g ∈ s.holders, g ≠ e → (s.state.pc g).answersOpen = true
  /-- who holds the file while a `filp_close` is under way is still to open it -/
  closing : ∀ e, (s.state.pc e).closesFile = true → s.holders ≠ [] → ¬ NoneAt Pc.opensFile s.state
  held : NoneAt Pc.opensFile s.state → s.holders ≠ [] → s.state.chrifFilp = .opened
  free : NoneAt Pc.closesFile s.state → s.holders = [] → s.state.chrifFilp ≠ .opened
  data : ∀ d, (s.state.pc d).isData = true → d ∈ s.holders
  matched : ∀ d req, s.state.pc d = .closeCount req → d ∈ s.holders
  asked : ∀ d req, s.state.pc d = .openCount req ∨ s.state.pc d = .openFile req →
    req.operation = .opOpen
  alive : ∀ d, s.state.pc d ≠ .dead

theorem Counting.init : Counting ⟨{}, []⟩ := by
  exact ⟨rfl, nofun, nofun, fun _ h => absurd rfl h, nofun, nofun, nofun, nofun, nofun⟩

section
variable {cfg : Config} {s t : Tracked} {u : State} {d : Dom}

theorem noneAt_congr {f : Pc → Bool} {s : State} (hothers : ∀ e, e ≠ d → u.pc e = s.pc e)
    (hold : f (s.pc d) = false) (hnew : f (u.pc d) = false) : NoneAt f u ↔ NoneAt f s := by
  constructor
  · intro h e
    by_cases he : e = d
    · rw [he]
      exact hold
    · rw [← hothers e he]
      exact h e
  · intro h e
    by_cases he : e = d
    · rw [he]
      exact hnew
    · rw [hothers e he]
      exact h e

structure Quiet (s : Tracked) (u : State) (d : Dom) : Prop where
  others : ∀ e, e ≠ d → u.pc e = s.state.pc e
  cnt : u.openCnt = s.state.openCnt
  filp : u.chrifFilp = s.state.chrifFilp
  oldOpens : (s.state.pc d).opensFile = false
  oldCloses : (s.state.pc d).closesFile = false
  newOpens : (u.pc d).opensFile = false
  newCloses : (u.pc d).closesFile = false
  alive : u.pc d ≠ .dead
  data : (u.pc d).isData = true → d ∈ s.holders
  matched : ∀ req, u.pc d = .closeCount req → d ∈ s.holders
  asked : ∀ req, u.pc d = .openCount req → req.operation = .opOpen
  answers : (s.state.pc d).answersOpen = true → NoneAt Pc.opensFile s.state

theorem Quiet.opens (hq : Quiet s u d) : NoneAt Pc.opensFile u ↔ NoneAt Pc.opensFile s.state :=
  noneAt_congr hq.others hq.oldOpens hq.newOpens

theorem Quiet.closes (hq : Quiet s u d) : NoneAt Pc.closesFile u ↔ NoneAt Pc.closesFile s.state :=
  noneAt_congr hq.others hq.oldCloses hq.newCloses

theorem Counting.quiet (h : Counting s) (hq : Quiet s u d) : Counting ⟨u, s.holders⟩ where
  count := hq.cnt.trans h.count
  opening := by
    intro e he
    have hne : e ≠ d := by
      rintro rfl
      rw [hq.newOpens] at he
      cases he
    rw [hq.others e hne] at he
    obtain ⟨hmem, hwait⟩ := h.opening e he
    refine ⟨hmem, fun g hg hge => ?_⟩
    have hanswers := hwait g hg hge
    by_cases hgd : g = d
    · subst g
      have hnone := hq.answers hanswers e
      rw [he] at hnone
      cases hnone
    · rw [hq.others g hgd]
      exact hanswers
  closing := by
    intro e he hheld
    have hne : e ≠ d := by
      rintro rfl
      rw [hq.newCloses] at he
      cases he
    rw [hq.others e hne] at he
    rw [hq.opens]
    exact h.closing e he hheld
  held := by
    rw [hq.opens, hq.filp]
    exact h.held
  free := by
    rw [hq.closes, hq.filp]
    exact h.free
  data := by
    intro e he
    by_cases hed : e = d
    · subst e
      exact hq.data he
    · rw [hq.others e hed] at he
      exact h.data e he
  matched := by
    intro e req he
    by_cases hed : e = d
    · subst e
      exact hq.matched req he
    · rw [hq.others e hed] at he
      exact h.matched e req he
  asked := by
    intro e req he
    by_cases hed : e = d
    · subst e
      refine hq.asked req (he.resolve_right fun hopens => ?_)
      have hno := hq.newOpens
      rw [hopens] at hno
      cases hno
    · rw [hq.others e hed] at he
      exact h.asked e req he
  alive := by
    intro e
    by_cases hed : e = d
    · subst e
      exact hq.alive
    · rw [hq.others e hed]
      exact h.alive e

/-- A DomU that is served holds the file, and nobody opens or closes it meanwhile. -/
theorem Counting.open_for_data (h : Counting s) (hd : (s.state.pc d).isData = true) :
    NoneAt Pc.opensFile s.state ∧ s.state.chrifFilp = .opened := by
  have hmem := h.data d hd
  have hnone : NoneAt Pc.opensFile s.state := by
    intro e
    cases he : (s.state.pc e).opensFile with
    | false => rfl
    | true =>
      have hne : d ≠ e := by
        rintro rfl
        cases hpc : s.state.pc d <;> simp [hpc, Pc.opensFile, Pc.isData] at he hd
      have hanswers := (h.opening e he).2 d hmem hne
      cases hpc : s.state.pc d <;> simp [hpc, Pc.answersOpen, Pc.isData] at hanswers hd
  exact ⟨hnone, h.held hnone (List.ne_nil_of_mem hmem)⟩

/-! ## Serving requests -/

structure DataMove (s u : State) (d : Dom) : Prop where
  cnt : u.openCnt = s.openCnt
  filp : u.chrifFilp = s.chrifFilp
  pc : (u.pc d).isData = true ∨ u.pc d = .idle

theorem DataMove.goto {s u : State} {pc : Pc}
    (hpc : pc.isData = true ∨ pc = .idle := by simp [Pc.isData])
    (hcnt : u.openCnt = s.openCnt := by rfl) (hfilp : u.chrifFilp = s.chrifFilp := by rfl) :
    DataMove s (u.goto d pc) d :=
  ⟨hcnt, hfilp, by rwa [goto_pc_self]⟩

theorem DataMove.call {s : State} (hopen : s.chrifFilp = .opened) {o : DevOp} {pc : Pc}
    (hpc : pc.isData = true ∨ pc = .idle := by simp [Pc.isData]) : DataMove s (s.call d o pc) d := by
  rw [State.call, if_pos hopen]
  exact .goto hpc

theorem DataMove.lockThen {s : State} (hold : (s.pc d).isData = true) {pc : Pc}
    (hpc : pc.isData = true := by rfl) : DataMove s (s.lockThen d pc) d := by
  unfold State.lockThen
  split
  · exact .goto (.inl hpc)
  · exact ⟨rfl, rfl, .inl hold⟩

theorem writeStep_data {s : State} (env : Env) {req : Request} {pc : WritePc}
    (hpc : s.pc d = .write req pc) (hopen : s.chrifFilp = .opened) :
    DataMove s (s.writeStep cfg d env req pc) d := by
  have hold : (s.pc d).isData = true := by
    rw [hpc]
    rfl
  cases pc with
  | lock => exact .lockThen hold
  | reset | lenReg => exact .call hopen
  | block =>
    simp only [State.writeStep]
    split <;> exact .call hopen
  | waitRetest =>
    simp only [State.writeStep]
    split <;> exact .goto
  | asleep =>
    simp only [State.writeStep]
    split
    · exact ⟨rfl, rfl, .inl hold⟩
    · exact .goto
  | ownerTest | ownTest | waitTest | resetTest | lenTest | finish => exact .goto
  | _ => exact .goto

theorem readStep_data {s : State} (env : Env) {req : Request} {pc : ReadPc}
    (hopen : s.chrifFilp = .opened) : DataMove s (s.readStep cfg d env req pc) d := by
  cases pc with
  | reg | reset => exact .call hopen
  | block val =>
    simp only [State.readStep]
    split <;> exact .call hopen
  | finish val =>
    simp only [State.readStep]
    split <;> exact .goto
  | _ => exact .goto

theorem threadStep_data {s : State} (env : Env) (hdata : (s.pc d).isData = true)
    (hopen : s.chrifFilp = .opened) : DataMove s (s.threadStep cfg d env) d := by
  unfold State.threadStep
  split
  case h_7 req pc hpc => exact writeStep_data env hpc hopen
  case h_8 req pc hpc => exact readStep_data env hopen
  case h_9 req hpc => exact .lockThen hdata
  case h_10 req hpc => exact .call hopen
  case h_11 req hpc => exact .goto
  case h_12 hpc => exact .goto
  all_goals
    rename_i hpc
    rw [hpc] at hdata
    cases hdata

/-! ## Counting, opening and closing -/

theorem Counting.of_step (h : Counting s) {holders : List Dom}
    (hothers : ∀ e, e ≠ d → u.pc e = s.state.pc e) (hcount : u.openCnt = holders.length)
    (hkeep : ∀ e, e ≠ d → e ∈ s.holders → e ∈ holders)
    (hopening : ∀ e, (u.pc e).opensFile = true →
      e ∈ holders ∧ ∀ g ∈ holders, g ≠ e → (u.pc g).answersOpen = true)
    (hclosing : ∀ e, (u.pc e).closesFile = true → holders ≠ [] → ¬ NoneAt Pc.opensFile u)
    (hheld : NoneAt Pc.opensFile u → holders ≠ [] → u.chrifFilp = .opened)
    (hfree : NoneAt Pc.closesFile u → holders = [] → u.chrifFilp ≠ .opened)
    (hdata : (u.pc d).isData = false := by simp [Pc.isData])
    (hmatched : ∀ req, u.pc d ≠ .closeCount req := by simp)
    (hasked : ∀ req, u.pc d = .openCount req ∨ u.pc d = .openFile req → req.operation = .opOpen)
    (halive : u.pc d ≠ .dead := by simp) : Counting ⟨u, holders⟩ where
  count := hcount
  opening := hopening
  closing := hclosing
  held := hheld
  free := hfree
  data := by
    intro e he
    have hed : e ≠ d := by
      rintro rfl
      rw [hdata] at he
      cases he
    rw [hothers e hed] at he
    exact hkeep e hed (h.data e he)
  matched := by
    intro e req he
    have hed : e ≠ d := by
      rintro rfl
      exact hmatched req he
    rw [hothers e hed] at he
    exact hkeep e hed (h.matched e req he)
  asked := by
    intro e req he
    by_cases hed : e = d
    · subst e
      exact hasked req he
    · rw [hothers e hed] at he
      exact h.asked e req he
  alive := by
    intro e
    by_cases hed : e = d
    · subst e
      exact halive
    · rw [hothers e hed]
      exact h.alive e

theorem Counting.first_open (h : Counting s) {req : Request} (hpc : s.state.pc d = .openCount req)
    (hnone : s.holders = []) :
    Counting ⟨{ s.state with openCnt := s.state.openCnt + 1 }.goto d (.openFile req),
      d :: s.holders⟩ := by
  have hcount := h.count
  have hop := h.asked d req (.inl hpc)
  refine h.of_step (d := d) (fun e he => goto_pc_of_ne _ _ _ he) ?_ ?_ ?_ ?_ ?_ ?_ (by simp [Pc.isData])
    (by simp) ?_ (by simp)
  · simp only [State.goto, List.length_cons]
    omega
  · exact fun e _ he => List.mem_cons_of_mem d he
  · intro e he
    by_cases hed : e = d
    · subst e
      refine ⟨List.mem_cons_self, fun g hg hge => ?_⟩
      rw [hnone] at hg
      exact absurd (List.mem_singleton.mp hg) hge
    · rw [goto_pc_of_ne _ _ _ hed] at he
      have hmem := (h.opening e he).1
      rw [hnone] at hmem
      cases hmem
  · intro e _ _ hno
    have hd := hno d
    rw [goto_pc_self] at hd
    cases hd
  · intro hno
    have hd := hno d
    rw [goto_pc_self] at hd
    cases hd
  · intro _ hempty
    cases hempty
  · intro req' hreq
    rw [goto_pc_self] at hreq
    rcases hreq with hreq | hreq
    · cases hreq
    · cases hreq
      exact hop

theorem at_goto {f : Pc → Bool} {s : State} {pc : Pc} {e : Dom} (hpc : f pc = false)
    (he : f ((s.goto d pc).pc e) = true) : e ≠ d ∧ f (s.pc e) = true := by
  have hed : e ≠ d := by
    rintro rfl
    rw [goto_pc_self, hpc] at he
    cases he
  rw [goto_pc_of_ne _ _ _ hed] at he
  exact ⟨hed, he⟩

theorem noneAt_goto {f : Pc → Bool} {s : State} {pc : Pc} (hold : f (s.pc d) = false)
    (hnew : f pc = false) : NoneAt f (s.goto d pc) ↔ NoneAt f s :=
  noneAt_congr (fun _ he => goto_pc_of_ne _ _ _ he) hold (by rwa [goto_pc_self])

theorem Counting.next_open (h : Counting s) {req : Request} (hpc : s.state.pc d = .openCount req)
    (hsome : s.holders ≠ []) :
    Counting ⟨{ s.state with openCnt := s.state.openCnt + 1 }.goto d (.respond req),
      d :: s.holders⟩ := by
  have hcount := h.count
  have hop := h.asked d req (.inl hpc)
  have hopens : NoneAt Pc.opensFile
      ({ s.state with openCnt := s.state.openCnt + 1 }.goto d (.respond req)) ↔
      NoneAt Pc.opensFile s.state :=
    noneAt_goto (s := { s.state with openCnt := s.state.openCnt + 1 }) (by simp only [hpc]; rfl) rfl
  refine h.of_step (d := d) (fun e he => goto_pc_of_ne _ _ _ he) ?_ ?_ ?_ ?_ ?_ ?_ (by simp [Pc.isData])
    (by simp) (by simp) (by simp)
  · simp only [State.goto, List.length_cons]
    omega
  · exact fun e _ he => List.mem_cons_of_mem d he
  · intro e he
    obtain ⟨hed, hopen⟩ := at_goto (f := Pc.opensFile) rfl he
    obtain ⟨hmem, hwait⟩ := h.opening e hopen
    refine ⟨List.mem_cons_of_mem d hmem, fun g hg hge => ?_⟩
    by_cases hgd : g = d
    · subst g
      simp [Pc.answersOpen, hop]
    · rw [goto_pc_of_ne _ _ _ hgd]
      exact hwait g ((List.mem_cons.mp hg).resolve_left hgd) hge
  · intro e he _
    obtain ⟨_, hclose⟩ := at_goto (f := Pc.closesFile) rfl he
    rw [hopens]
    exact h.closing e hclose hsome
  · intro hno _
    exact h.held (hopens.mp hno) hsome
  · intro _ hempty
    cases hempty

theorem Counting.opened (h : Counting s) {req : Request} (hpc : s.state.pc d = .openFile req)
    (hcloses : NoneAt Pc.closesFile s.state) :
    Counting ⟨{ s.state with chrifFilp := .opened }.goto d (.respond req), s.holders⟩ := by
  obtain ⟨hmem, hwait⟩ := h.opening d (by rw [hpc]; rfl)
  refine h.of_step (d := d) (fun e he => goto_pc_of_ne _ _ _ he) h.count (fun _ _ he => he) ?_ ?_ ?_ ?_
    (by simp [Pc.isData]) (by simp) (by simp) (by simp)
  · intro e he
    obtain ⟨hed, hopen⟩ := at_goto (f := Pc.opensFile) rfl he
    -- two threads that open the file would each wait for the other's answer
    have hanswers := hwait e (h.opening e hopen).1 hed
    cases hpe : s.state.pc e <;> simp [hpe, Pc.opensFile, Pc.answersOpen] at hopen hanswers
  · intro e he
    obtain ⟨_, hclose⟩ := at_goto (f := Pc.closesFile) rfl he
    have hno := hcloses e
    rw [hclose] at hno
    cases hno
  · exact fun _ _ => rfl
  · intro _ hempty
    rw [hempty] at hmem
    cases hmem

theorem Counting.none_opens (h : Counting s) (hmem : d ∈ s.holders)
    (hopens : (s.state.pc d).opensFile = false) (hanswers : (s.state.pc d).answersOpen = false) :
    NoneAt Pc.opensFile s.state := by
  intro e
  cases he : (s.state.pc e).opensFile with
  | false => rfl
  | true =>
    have hne : d ≠ e := by
      rintro rfl
      rw [hopens] at he
      cases he
    have hwait := (h.opening e he).2 d hmem hne
    rw [hanswers] at hwait
    cases hwait

theorem Counting.last_close (h : Counting s) {req : Request} (hlast : s.holders = [d]) :
    Counting ⟨{ s.state with openCnt := s.state.openCnt - 1 }.goto d (.closeFile req),
      s.holders.erase d⟩ := by
  have hcount := h.count
  have hempty : s.holders.erase d = [] := by simp [hlast]
  refine h.of_step (d := d) (fun e he => goto_pc_of_ne _ _ _ he) ?_ ?_ ?_ ?_ ?_ ?_ (by simp [Pc.isData])
    (by simp) (by simp) (by simp)
  · simp [State.goto, hcount, hlast]
  · intro e hed he
    rw [hlast] at he
    exact absurd (List.mem_singleton.mp he) hed
  · intro e he
    obtain ⟨hed, hopen⟩ := at_goto (f := Pc.opensFile) rfl he
    have hmem := (h.opening e hopen).1
    rw [hlast] at hmem
    exact absurd (List.mem_singleton.mp hmem) hed
  · exact fun _ _ hsome => absurd hempty hsome
  · exact fun _ hsome => absurd hempty hsome
  · intro hno
    have hd := hno d
    rw [goto_pc_self] at hd
    cases hd

theorem Counting.other_close (h : Counting s) {req : Request} (hpc : s.state.pc d = .closeCount req)
    (hmore : s.holders.erase d ≠ []) :
    Counting ⟨{ s.state with openCnt := s.state.openCnt - 1 }.goto d (.respond req),
      s.holders.erase d⟩ := by
  have hcount := h.count
  have hmem := h.matched d req hpc
  have hlen := List.length_erase_of_mem hmem
  have hpos := List.length_pos_of_mem hmem
  have hnone : NoneAt Pc.opensFile s.state :=
    h.none_opens hmem (by rw [hpc]; rfl) (by rw [hpc]; rfl)
  have hsome := List.ne_nil_of_mem hmem
  refine h.of_step (d := d) (fun e he => goto_pc_of_ne _ _ _ he) ?_ ?_ ?_ ?_ ?_ ?_ (by simp [Pc.isData])
    (by simp) (by simp) (by simp)
  · simp only [State.goto, hlen]
    omega
  · exact fun e hed he => (List.mem_erase_of_ne hed).mpr he
  · intro e he
    obtain ⟨_, hopen⟩ := at_goto (f := Pc.opensFile) rfl he
    have hno := hnone e
    rw [hopen] at hno
    cases hno
  · intro e he
    obtain ⟨_, hclose⟩ := at_goto (f := Pc.closesFile) rfl he
    exact absurd hnone (h.closing e hclose hsome)
  · exact fun _ _ => h.held hnone hsome
  · exact fun _ hempty => absurd hempty hmore

theorem Counting.closed (h : Counting s) {req : Request} (hpc : s.state.pc d = .closeFile req) :
    Counting ⟨{ s.state with chrifFilp := .closed }.goto d (.respond req), s.holders⟩ := by
  have hopens : NoneAt Pc.opensFile ({ s.state with chrifFilp := .closed }.goto d (.respond req)) ↔
      NoneAt Pc.opensFile s.state :=
    noneAt_goto (s := { s.state with chrifFilp := .closed }) (by simp only [hpc]; rfl) rfl
  have hclosing := h.closing d (by rw [hpc]; rfl)
  refine h.of_step (d := d) (fun e he => goto_pc_of_ne _ _ _ he) h.count (fun _ _ he => he) ?_ ?_ ?_ ?_
    (by simp [Pc.isData]) (by simp) (by simp) (by simp)
  · intro e he
    obtain ⟨hed, hopen⟩ := at_goto (f := Pc.opensFile) rfl he
    obtain ⟨hmem, hwait⟩ := h.opening e hopen
    refine ⟨hmem, fun g hg hge => ?_⟩
    have hanswers := hwait g hg hge
    have hgd : g ≠ d := by
      rintro rfl
      rw [hpc] at hanswers
      cases hanswers
    rw [goto_pc_of_ne _ _ _ hgd]
    exact hanswers
  · intro e _ hsome
    rw [hopens]
    exact hclosing hsome
  · intro hno hsome
    exact absurd (hopens.mp hno) (hclosing hsome)
  · intro _ _ hfilp
    cases hfilp

/-! ## Every step -/

structure BeginsAt (req : Request) (pc : Pc) : Prop where
  opens : pc.opensFile = false
  closes : pc.closesFile = false
  alive : pc ≠ .dead
  data : pc.isData = true → req.operation.isData = true
  matched : ∀ r, pc = .closeCount r → req.operation = .opClose
  asked : ∀ r, pc = .openCount r → r.operation = .opOpen

theorem begin_beginsAt (req : Request) : BeginsAt req (State.begin req) := by
  unfold State.begin
  cases hop : req.operation with
  | opOpen => exact ⟨rfl, rfl, nofun, nofun, nofun, fun r hr => by cases hr; exact hop⟩
  | opClose => exact ⟨rfl, rfl, nofun, nofun, fun _ _ => hop, nofun⟩
  | read | write | ioctl => exact ⟨rfl, rfl, nofun, fun _ => by rw [hop]; rfl, nofun, nofun⟩
  | map | unknown => exact ⟨rfl, rfl, nofun, nofun, nofun, nofun⟩

theorem take_quiet {req : Request} (hidle : s.state.pc d = .idle) (hp : Polite s (.take d req))
    (hm : Matched s (.take d req)) :
    Quiet s ((s.state.log (.take d req)).goto d (State.begin req)) d := by
  have hpc : ((s.state.log (.take d req)).goto d (State.begin req)).pc d = State.begin req :=
    goto_pc_self ..
  have hbegins := begin_beginsAt req
  exact {
    others := fun e he => goto_pc_of_ne _ _ _ he
    cnt := rfl
    filp := rfl
    oldOpens := by rw [hidle]; rfl
    oldCloses := by rw [hidle]; rfl
    newOpens := by rw [hpc]; exact hbegins.opens
    newCloses := by rw [hpc]; exact hbegins.closes
    alive := by rw [hpc]; exact hbegins.alive
    data := by rw [hpc]; exact fun hdata => hp hidle (hbegins.data hdata)
    matched := by rw [hpc]; exact fun r hr => hm hidle (hbegins.matched r hr)
    asked := by rw [hpc]; exact hbegins.asked
    answers := by rw [hidle]; exact nofun }

theorem data_quiet (h : Counting s) (env : Env) (hdata : (s.state.pc d).isData = true) :
    Quiet s (s.state.threadStep cfg d env) d := by
  obtain ⟨hnone, hopen⟩ := h.open_for_data hdata
  have hmove : DataMove s.state (s.state.threadStep cfg d env) d := threadStep_data env hdata hopen
  have hold : (s.state.pc d).opensFile = false ∧ (s.state.pc d).closesFile = false := by
    cases hpc : s.state.pc d <;> simp [hpc, Pc.isData, Pc.opensFile, Pc.closesFile] at hdata ⊢
  have hmem := h.data d hdata
  refine ⟨fun e he => threadStep_pc_of_ne cfg env he, hmove.cnt, hmove.filp, hold.1, hold.2, ?_, ?_, ?_,
    fun _ => hmem, fun _ _ => hmem, ?_, fun _ => hnone⟩
  all_goals
    rcases hmove.pc with hpc | hpc <;> cases hpc' : (s.state.threadStep cfg d env).pc d <;>
      simp [hpc', Pc.isData, Pc.opensFile, Pc.closesFile] at hpc ⊢

theorem respond_quiet {req : Request} {env : Env} (hpc : s.state.pc d = .respond req)
    (hm : Matched s (.run d env)) : Quiet s ((s.state.respond d req none).goto d .idle) d := by
  have hidle : ((s.state.respond d req none).goto d .idle).pc d = .idle := goto_pc_self ..
  exact {
    others := fun e he => goto_pc_of_ne _ _ _ he
    cnt := rfl
    filp := rfl
    oldOpens := by rw [hpc]; rfl
    oldCloses := by rw [hpc]; rfl
    newOpens := by rw [hidle]; rfl
    newCloses := by rw [hidle]; rfl
    alive := by rw [hidle]; exact nofun
    data := by rw [hidle]; exact nofun
    matched := by rw [hidle]; exact nofun
    asked := by rw [hidle]; exact nofun
    answers := hm.1 }

inductive FileMove (s : Tracked) (d : Dom) : Tracked → Prop where
  | same : FileMove s d s
  | quiet (u : State) (move : Quiet s u d) : FileMove s d ⟨u, s.holders⟩
  | firstOpen (req : Request) (pc : s.state.pc d = .openCount req) (none : s.holders = []) :
    FileMove s d ⟨{ s.state with openCnt := s.state.openCnt + 1 }.goto d (.openFile req),
      d :: s.holders⟩
  | nextOpen (req : Request) (pc : s.state.pc d = .openCount req) (some : s.holders ≠ []) :
    FileMove s d ⟨{ s.state with openCnt := s.state.openCnt + 1 }.goto d (.respond req),
      d :: s.holders⟩
  | opened (req : Request) (pc : s.state.pc d = .openFile req)
      (closes : NoneAt Pc.closesFile s.state) :
    FileMove s d ⟨{ s.state with chrifFilp := .opened }.goto d (.respond req), s.holders⟩
  | lastClose (req : Request) (pc : s.state.pc d = .closeCount req) (last : s.holders = [d]) :
    FileMove s d ⟨{ s.state with openCnt := s.state.openCnt - 1 }.goto d (.closeFile req),
      s.holders.erase d⟩
  | otherClose (req : Request) (pc : s.state.pc d = .closeCount req)
      (more : s.holders.erase d ≠ []) :
    FileMove s d ⟨{ s.state with openCnt := s.state.openCnt - 1 }.goto d (.respond req),
      s.holders.erase d⟩
  | closed (req : Request) (pc : s.state.pc d = .closeFile req) :
    FileMove s d ⟨{ s.state with chrifFilp := .closed }.goto d (.respond req), s.holders⟩

theorem step_move {l : Label} (h : Counting s) (hp : Polite s l) (hm : Matched s l)
    (hstep : Tracked.step cfg s l = some t) : FileMove s l.dom t := by
  obtain ⟨u, hu, rfl⟩ := Option.map_eq_some_iff.mp hstep
  cases l with
  | take d req =>
    cases hu
    unfold State.takeStep
    split
    case isTrue hidle => exact .quiet _ (take_quiet hidle hp hm)
    case isFalse => exact .same
  | run d env =>
    cases hu
    change FileMove s d _
    cases hdata : (s.state.pc d).isData with
    | true =>
      have hquiet : FileMove s d ⟨s.state.threadStep cfg d env, s.holders⟩ :=
        .quiet _ (data_quiet h env hdata)
      cases hpc : s.state.pc d <;> simp [hpc, Pc.isData] at hdata <;>
        simpa [Tracked.holdersAfter, hpc] using hquiet
    | false =>
      unfold State.threadStep
      cases hpc : s.state.pc d <;> simp [hpc, Pc.isData] at hdata <;>
        simp only [Tracked.holdersAfter, hpc]
      case idle | dead => exact .same
      case openCount req =>
        have hcount := h.count
        split
        case isTrue hone => exact .firstOpen req hpc (List.length_eq_zero_iff.mp (by omega))
        case isFalse hne =>
          refine .nextOpen req hpc fun hnil => hne ?_
          rw [hcount, hnil]
          rfl
      case openFile req =>
        obtain ⟨hok, hcloses⟩ := hm.2 (by rw [hpc]; rfl)
        rw [if_pos hok]
        exact .opened req hpc hcloses
      case closeCount req =>
        have hcount := h.count
        have hmem := h.matched d req hpc
        have hlen := List.length_erase_of_mem hmem
        split
        case isTrue hzero =>
          obtain ⟨e, he⟩ := List.length_eq_one_iff.mp (by omega : s.holders.length = 1)
          have hed : d = e := by simpa [he] using hmem
          exact .lastClose req hpc (by rw [he, hed])
        case isFalse hne =>
          refine .otherClose req hpc fun hnil => hne ?_
          rw [hnil, List.length_nil] at hlen
          have hpos := List.length_pos_of_mem hmem
          omega
      case closeFile req => exact .closed req hpc
      case respond req => exact .quiet _ (respond_quiet hpc hm)

theorem FileMove.counting (hm : FileMove s d t) (h : Counting s) : Counting t := by
  cases hm with
  | same => exact h
  | quiet u move => exact h.quiet move
  | firstOpen req pc none => exact h.first_open pc none
  | nextOpen req pc some => exact h.next_open pc some
  | opened req pc closes => exact h.opened pc closes
  | lastClose req pc last => exact h.last_close last
  | otherClose req pc more => exact h.other_close pc more
  | closed req pc => exact h.closed pc

theorem Tracked.guests_eq_zero : s.guests = 0 ↔ s.holders = [] := by
  rw [Tracked.guests, List.length_eq_zero_iff, List.dedup_eq_nil]

theorem none_begins {f : Pc → Bool} (hothers : ∀ e, e ≠ d → t.state.pc e = s.state.pc e)
    (hnew : f (t.state.pc d) = false) :
    ¬ ∃ e, f (t.state.pc e) = true ∧ f (s.state.pc e) = false := by
  rintro ⟨e, hgoes, hwas⟩
  by_cases hed : e = d
  · subst e
    rw [hnew] at hgoes
    cases hgoes
  · rw [hothers e hed, hwas] at hgoes
    cases hgoes

theorem Transitions.none (hothers : ∀ e, e ≠ d → t.state.pc e = s.state.pc e)
    (hopens : (t.state.pc d).opensFile = false) (hcloses : (t.state.pc d).closesFile = false)
    (hguests : (s.guests = 0 ↔ t.guests = 0)) : Transitions s t where
  opens := iff_of_false (none_begins hothers hopens) (by omega)
  closes := iff_of_false (none_begins hothers hcloses) (by omega)

theorem Transitions.same (s : Tracked) : Transitions s s where
  opens := iff_of_false (fun ⟨e, hgoes, hwas⟩ => by simp [hwas] at hgoes) (by omega)
  closes := iff_of_false (fun ⟨e, hgoes, hwas⟩ => by simp [hwas] at hgoes) (by omega)

theorem Transitions.opens_file (hothers : ∀ e, e ≠ d → t.state.pc e = s.state.pc e)
    (hold : (s.state.pc d).opensFile = false) (hnew : (t.state.pc d).opensFile = true)
    (hcloses : (t.state.pc d).closesFile = false) (hs : s.guests = 0) (ht : t.guests = 1) :
    Transitions s t where
  opens := iff_of_true ⟨d, hnew, hold⟩ ⟨hs, ht⟩
  closes := iff_of_false (none_begins hothers hcloses) (by omega)

theorem Transitions.closes_file (hothers : ∀ e, e ≠ d → t.state.pc e = s.state.pc e)
    (hold : (s.state.pc d).closesFile = false) (hnew : (t.state.pc d).closesFile = true)
    (hopens : (t.state.pc d).opensFile = false) (hs : s.guests = 1) (ht : t.guests = 0) :
    Transitions s t where
  opens := iff_of_false (none_begins hothers hopens) (by omega)
  closes := iff_of_true ⟨d, hnew, hold⟩ ⟨hs, ht⟩

theorem FileMove.transitions (hm : FileMove s d t) (h : Counting s) : Transitions s t := by
  cases hm with
  | same => exact .same s
  | quiet u move => exact .none move.others move.newOpens move.newCloses Iff.rfl
  | firstOpen req pc none =>
    exact .opens_file (fun e he => goto_pc_of_ne _ _ _ he) (by rw [pc]; rfl) (by simp [Pc.opensFile])
      (by simp [Pc.closesFile]) (Tracked.guests_eq_zero.mpr none) (by simp [Tracked.guests, none])
  | nextOpen req pc some =>
    refine .none (fun e he => goto_pc_of_ne _ _ _ he) (by simp [Pc.opensFile])
      (by simp [Pc.closesFile]) ?_
    simp [Tracked.guests_eq_zero, some]
  | opened req pc closes =>
    exact .none (fun e he => goto_pc_of_ne _ _ _ he) (by simp [Pc.opensFile])
      (by simp [Pc.closesFile]) Iff.rfl
  | lastClose req pc last =>
    exact .closes_file (fun e he => goto_pc_of_ne _ _ _ he) (by rw [pc]; rfl)
      (by simp [Pc.closesFile]) (by simp [Pc.opensFile]) (by simp [Tracked.guests, last])
      (by simp [Tracked.guests, last])
  | otherClose req pc more =>
    refine .none (fun e he => goto_pc_of_ne _ _ _ he) (by simp [Pc.opensFile])
      (by simp [Pc.closesFile]) ?_
    have hmem := h.matched d req pc
    simp only [Tracked.guests_eq_zero, more, iff_false]
    exact List.ne_nil_of_mem hmem
  | closed req pc =>
    exact .none (fun e he => goto_pc_of_ne _ _ _ he) (by simp [Pc.opensFile])
      (by simp [Pc.closesFile]) Iff.rfl

theorem Counting.refCounted (h : Counting s) : RefCounted s where
  usable := h.alive
  count := h.count
  nonneg := by
    rw [h.count]
    exact Int.natCast_nonneg _
  file := by
    intro hopens hcloses
    constructor
    · intro hopen hnil
      exact h.free hcloses hnil hopen
    · exact h.held hopens

end

/-- In any run of polite guests whose steps are matched: every use of the file is of one
that is open, the counter counts the holders, and the file is opened and closed exactly
when the number of the guests that hold it leaves 0 and reaches 0. -/
theorem open_close_counted {cfg : Config} {t : Tracked} {ls : List Label}
    (hpolite : Along (Tracked.step cfg) Polite ⟨{}, []⟩ ls)
    (hmatched : Along (Tracked.step cfg) Matched ⟨{}, []⟩ ls)
    (hrun : exec (Tracked.step cfg) ⟨{}, []⟩ ls = some t) :
    RefCounted t ∧ ∀ l u, Polite t l → Matched t l → Tracked.step cfg t l = some u →
      RefCounted u ∧ Transitions t u := by
  have h : Counting t := invariant_along
    (fun hs hc hstep => (step_move hs hc.1 hc.2 hstep).counting hs) Counting.init
    (hpolite.and hmatched) hrun
  refine ⟨h.refCounted, fun l u hp hm hstep => ?_⟩
  have hmove := step_move h hp hm hstep
  exact ⟨(hmove.counting h).refCounted, hmove.transitions h⟩

instance (s : Tracked) : (l : Label) → Decidable (Polite s l)
  | .take d req => inferInstanceAs
      (Decidable (s.state.pc d = .idle → req.operation.isData = true → d ∈ s.holders))
  | .run .. => isTrue trivial

def matchedAmong (ds : List Dom) (s : Tracked) : Label → Bool
  | .take d req => s.state.pc d != .idle || req.operation != .opClose || s.holders.contains d
  | .run d env =>
    (!(s.state.pc d).answersOpen || ds.all fun e => !(s.state.pc e).opensFile) &&
      (!(s.state.pc d).opensFile || env.ok && ds.all fun e => !(s.state.pc e).closesFile)

theorem noneAt_of_idle {f : Pc → Bool} {s : State} {ds : List Dom} (hf : f .idle = false)
    (hidle : ∀ e, e ∉ ds → s.pc e = .idle) (h : (ds.all fun e => !f (s.pc e)) = true) :
    NoneAt f s := by
  intro e
  by_cases hmem : e ∈ ds
  · simpa using List.all_eq_true.mp h e hmem
  · rw [hidle e hmem, hf]

theorem matched_of_few {cfg : Config} (ds : List Dom) {ls : List Label}
    (h : Along (Tracked.step cfg) (fun s l => l.dom ∈ ds ∧ matchedAmong ds s l) ⟨{}, []⟩ ls) :
    Along (Tracked.step cfg) Matched ⟨{}, []⟩ ls := by
  refine along_of_invariant (I := fun s => ∀ e, e ∉ ds → s.state.pc e = .idle) ?_ ?_
    (fun _ _ => rfl) h
  · intro s l t hidle hl hstep e he
    obtain ⟨u, hu, rfl⟩ := Option.map_eq_some_iff.mp hstep
    have hne : e ≠ l.dom := by
      rintro rfl
      exact he hl.1
    exact (step_pc_of_ne hu hne).trans (hidle e he)
  · intro s l hidle hl
    have hamong := hl.2
    cases l with
    | take d req =>
      intro hpc hclose
      simpa [matchedAmong, hpc, hclose] using hamong
    | run d env =>
      simp only [matchedAmong, Bool.and_eq_true, Bool.or_eq_true, Bool.not_eq_true'] at hamong
      obtain ⟨hanswers, hopens⟩ := hamong
      constructor
      · intro hpc
        rw [hpc] at hanswers
        exact noneAt_of_idle rfl hidle (hanswers.resolve_left nofun)
      · intro hpc
        rw [hpc] at hopens
        obtain ⟨hok, hcloses⟩ := hopens.resolve_left nofun
        exact ⟨hok, noneAt_of_idle rfl hidle hcloses⟩

theorem open_close_counted_two :
    ∃ t, exec (Tracked.step ⟨4096⟩) ⟨{}, []⟩ (serve 1 .opOpen 0 3 {} ++ serve 2 .opOpen 0 2 {} ++
        serve 1 .ioctl 0 4 {} ++ serve 1 .opClose 0 2 {} ++ serve 2 .opClose 0 3 {}) = some t ∧
      RefCounted t ∧ ∀ l u, Polite t l → Matched t l → Tracked.step ⟨4096⟩ t l = some u →
        RefCounted u ∧ Transitions t u :=
  exists_end _ (by decide) fun _ hrun =>
    open_close_counted (by decide) (matched_of_few [1, 2] (by decide)) hrun

/-- A DomU closes what it never opened; and a DomU whose OPEN is answered while the
`filp_open` of another one is under way has its IOCTL served through a null pointer. -/
theorem miscounted_and_not_yet_open :
    (∃ t, Along (Tracked.step ⟨4096⟩) Polite ⟨{}, []⟩ [.take 1 ⟨0, .opClose, 0, 0⟩, .run 1 {}] ∧
      exec (Tracked.step ⟨4096⟩) ⟨{}, []⟩ [.take 1 ⟨0, .opClose, 0, 0⟩, .run 1 {}] = some t ∧
      t.state.openCnt = -1) ∧
    ∃ t, Along (Tracked.step ⟨4096⟩) Polite ⟨{}, []⟩
        (serve 1 .opOpen 0 1 {} ++ serve 2 .opOpen 0 2 {} ++ serve 2 .ioctl 0 2 {}) ∧
      exec (Tracked.step ⟨4096⟩) ⟨{}, []⟩
        (serve 1 .opOpen 0 1 {} ++ serve 2 .opOpen 0 2 {} ++ serve 2 .ioctl 0 2 {}) = some t ∧
      t.state.pc 2 = .dead := by
  constructor
  · exact ⟨_, by decide, rfl, rfl⟩
  · exact ⟨_, by decide, rfl, rfl⟩

end PdmaXen.Dom0
