import Mathlib.Logic.Function.Iterate
import PdmaXen.Dom0.Threads

/-!
# Requests served one at a time

What a WRITE and a READ do to the session when no other thread runs meanwhile and no
block fails.
-/

namespace PdmaXen.Dom0
set_option autoImplicit false
open Machine

/-- A request of `d`, and its thread until it is back at the ring. -/
def serveRequest (d : Dom) (req : Request) (env : Env) : List Label :=
  .take d req :: List.replicate 14 (.run d env)

/-- The thread of `d` is at the ring, the lock is free and the device is open. -/
structure Ready (s : State) (d : Dom) : Prop where
  pc : s.pc d = .idle
  lock : s.pdmaLock = none
  filp : s.chrifFilp = .opened

namespace State

def logs (s : State) (es : List Event) : State := { s with trace := s.trace ++ es }

def lengthEvents (s : State) (d : Dom) (req : Request) : List Event :=
  if s.writedSz = 0 then [.op d (.regWrite 1), .op d (.regWrite ((req.length / 8) <<< 19))] else []

def nextWritedSz (cfg : Config) (s : State) (req : Request) : UInt32 :=
  if req.length ≤ s.writedSz + cfg.wtBlockSz then 0 else s.writedSz + cfg.wtBlockSz

def serveWrite (cfg : Config) (s : State) (d : Dom) (req : Request) : State :=
  { s with
    wtingDomuId := some d
    writedSz := s.nextWritedSz cfg req
    trace := s.trace ++ (.take d req :: s.lengthEvents d req ++
      [.op d (.write true), .response d (makeResponse req none), .unlock d (some d)]) }

def readVal (s : State) (env : Env) : UInt32 :=
  if s.readedSz = 0 then env.reg.getD env.stale else env.stale

def serveRead (cfg : Config) (s : State) (d : Dom) (req : Request) (env : Env) : State :=
  let val := s.readVal env
  { s with
    readedSz := if val ≤ s.readedSz + cfg.wtBlockSz then 0 else s.readedSz + cfg.wtBlockSz
    wtingDomuId := if val ≤ s.readedSz + cfg.wtBlockSz then none else s.wtingDomuId
    trace := s.trace ++ (.take d req :: (if s.readedSz = 0 then [.op d .regRead] else []) ++
      [.op d (.read val true), .response d (makeResponse req (some val))] ++
      if val ≤ s.readedSz + cfg.wtBlockSz then [.op d (.regWrite 1)] else []) }

end State

section
variable (cfg : Config) (d : Dom) (env : Env)

/-- The thread of `d`, alone, comes from `s` to `t` in at most `n` steps. -/
def Leads (n : Nat) (s t : State) : Prop :=
  ∃ k, k ≤ n ∧ (fun s : State => s.threadStep cfg d env)^[k] s = t

variable {cfg d env} {s t u : State} {m n : Nat} {req : Request}

theorem Leads.trans (h : Leads cfg d env m s t) (h' : Leads cfg d env n t u) :
    Leads cfg d env (m + n) s u := by
  obtain ⟨k, hk, hst⟩ := h
  obtain ⟨l, hl, htu⟩ := h'
  refine ⟨l + k, by omega, ?_⟩
  rw [Function.iterate_add_apply, hst, htu]

theorem iterate_idle (h : s.pc d = .idle) (n : Nat) :
    (fun s : State => s.threadStep cfg d env)^[n] s = s := by
  have hfix : s.threadStep cfg d env = s := by rw [State.threadStep, h]
  induction n with
  | zero => rfl
  | succ n ih => rw [Function.iterate_succ_apply, hfix, ih]

theorem Leads.iterate (h : Leads cfg d env n s t) (ht : t.pc d = .idle) (hn : n ≤ m) :
    (fun s : State => s.threadStep cfg d env)^[m] s = t := by
  obtain ⟨k, hk, hst⟩ := h
  have hm : m = (m - k) + k := by omega
  rw [hm, Function.iterate_add_apply, hst, iterate_idle ht]

theorem exec_replicate_run (cfg : Config) (s : State) (d : Dom) (env : Env) (n : Nat) :
    exec (step cfg) s (List.replicate n (.run d env))
      = some ((fun s : State => s.threadStep cfg d env)^[n] s) := by
  induction n generalizing s with
  | zero => rfl
  | succ n ih =>
    rw [List.replicate_succ, exec_cons, Function.iterate_succ_apply]
    exact ih _

/-! ## WRITE -/

theorem write_claims (hpc : s.pc d = .write req .lock) (hlock : s.pdmaLock = none)
    (hown : s.wtingDomuId = none ∨ s.wtingDomuId = some d) :
    Leads cfg d env 4 s
      ({ s with pdmaLock := some d, wtingDomuId := some d }.goto d (.write req .resetTest)) := by
  rcases hown with hw | hw
  · refine ⟨4, by decide, ?_⟩
    simp [Function.iterate_succ_apply, State.threadStep, State.writeStep, State.goto,
      State.lockThen, hpc, hlock, hw]
  · refine ⟨3, by decide, ?_⟩
    simp [Function.iterate_succ_apply, State.threadStep, State.writeStep, State.goto,
      State.lockThen, hpc, hlock, hw]

theorem write_lengths (hpc : s.pc d = .write req .resetTest) (hfilp : s.chrifFilp = .opened) :
    Leads cfg d env 4 s ((s.logs (s.lengthEvents d req)).goto d (.write req .block)) := by
  by_cases h0 : s.writedSz = 0
  · refine ⟨4, by decide, ?_⟩
    simp [Function.iterate_succ_apply, State.threadStep, State.writeStep, State.goto, State.call,
      State.log, State.logs, State.lengthEvents, hpc, hfilp, h0]
  · refine ⟨2, by decide, ?_⟩
    simp [Function.iterate_succ_apply, State.threadStep, State.writeStep, State.goto, State.logs,
      State.lengthEvents, hpc, h0]

theorem write_block (hpc : s.pc d = .write req .block) (hfilp : s.chrifFilp = .opened)
    (hok : env.ok = true) :
    Leads cfg d env 6 s
      (({ s with pdmaLock := none, writedSz := s.nextWritedSz cfg req }.logs [.op d (.write true),
        .response d (makeResponse req none), .unlock d s.pdmaLock]).goto d .idle) := by
  by_cases hle : req.length ≤ s.writedSz + cfg.wtBlockSz
  · refine ⟨6, by decide, ?_⟩
    simp [Function.iterate_succ_apply, State.threadStep, State.writeStep, State.goto, State.call,
      State.log, State.logs, State.respond, State.unlock, State.nextWritedSz, hpc, hfilp, hok, hle]
  · refine ⟨5, by decide, ?_⟩
    simp [Function.iterate_succ_apply, State.threadStep, State.writeStep, State.goto, State.call,
      State.log, State.logs, State.respond, State.unlock, State.nextWritedSz, hpc, hfilp, hok, hle]

theorem update_idle (h : s.pc d = .idle) : Function.update s.pc d .idle = s.pc := by
  rw [← h, Function.update_eq_self]

theorem exec_write (h : Ready s d) (hop : req.operation = .write)
    (hown : s.wtingDomuId = none ∨ s.wtingDomuId = some d) (hok : env.ok = true) :
    exec (step cfg) s (serveRequest d req env) = some (s.serveWrite cfg d req) := by
  have htake : s.takeStep d req = (s.log (.take d req)).goto d (.write req .lock) := by
    simp [State.takeStep, State.begin, h.pc, hop]
  have hclaim : Leads cfg d env _ ((s.log (.take d req)).goto d (.write req .lock)) _ :=
    write_claims (goto_pc_self _ _ _) h.lock hown
  have hall := (hclaim.trans (write_lengths (goto_pc_self _ _ _) h.filp)).trans
    (write_block (goto_pc_self _ _ _) h.filp hok)
  rw [serveRequest, exec_cons, step, Option.bind_some, exec_replicate_run, htake,
    hall.iterate (goto_pc_self _ _ _) (Nat.le_refl 14)]
  simp [State.serveWrite, State.goto, State.log, State.logs, State.lengthEvents,
    State.nextWritedSz, h.lock, update_idle h.pc]

/-! ## READ -/

theorem read_starts (hpc : s.pc d = .read req .regTest) (hfilp : s.chrifFilp = .opened) :
    Leads cfg d env 2 s ((s.logs (if s.readedSz = 0 then [.op d .regRead] else [])).goto d
      (.read req (.block (s.readVal env)))) := by
  by_cases h0 : s.readedSz = 0
  · refine ⟨2, by decide, ?_⟩
    simp [Function.iterate_succ_apply, State.threadStep, State.readStep, State.goto, State.call,
      State.log, State.logs, State.readVal, hpc, hfilp, h0]
  · refine ⟨1, by decide, ?_⟩
    simp [State.threadStep, State.readStep, State.goto, State.logs, State.readVal, hpc, h0]

theorem read_block {val : UInt32} (hpc : s.pc d = .read req (.block val))
    (hfilp : s.chrifFilp = .opened) (hok : env.ok = true) :
    Leads cfg d env 3 s (({ s with readedSz := s.readedSz + cfg.wtBlockSz }.logs
      [.op d (.read val true), .response d (makeResponse req (some val))]).goto d
      (.read req (.finish val))) := by
  refine ⟨3, by decide, ?_⟩
  simp [Function.iterate_succ_apply, State.threadStep, State.readStep, State.goto, State.call,
    State.log, State.logs, State.respond, hpc, hfilp, hok]

theorem read_ends {val : UInt32} (hpc : s.pc d = .read req (.finish val))
    (hfilp : s.chrifFilp = .opened) (hwq : s.writePdmaWq = []) :
    Leads cfg d env 5 s (({ s with
      readedSz := if val ≤ s.readedSz then 0 else s.readedSz
      wtingDomuId := if val ≤ s.readedSz then none else s.wtingDomuId }.logs
      (if val ≤ s.readedSz then [.op d (.regWrite 1)] else [])).goto d .idle) := by
  by_cases hle : val ≤ s.readedSz
  · refine ⟨5, by decide, ?_⟩
    simp [Function.iterate_succ_apply, State.threadStep, State.readStep, State.goto, State.call,
      State.log, State.logs, hpc, hfilp, hwq, hle]
  · refine ⟨1, by decide, ?_⟩
    simp [State.threadStep, State.readStep, State.goto, State.logs, hpc, hle]

theorem exec_read (h : Ready s d) (hop : req.operation = .read) (hwq : s.writePdmaWq = [])
    (hok : env.ok = true) :
    exec (step cfg) s (serveRequest d req env) = some (s.serveRead cfg d req env) := by
  have htake : s.takeStep d req = (s.log (.take d req)).goto d (.read req .regTest) := by
    simp [State.takeStep, State.begin, h.pc, hop]
  obtain ⟨t, ht, hst⟩ : ∃ t, t = _ ∧ Leads cfg d env 2 _ t :=
    ⟨_, rfl, read_starts (s := (s.log (.take d req)).goto d (.read req .regTest)) (d := d)
      (goto_pc_self _ _ _) h.filp⟩
  have hpc : t.pc d = .read req (.block (s.readVal env)) := by
    rw [ht, goto_pc_self]
    rfl
  have hfilp : t.chrifFilp = .opened := by
    simpa [ht, State.goto, State.logs, State.log] using h.filp
  obtain ⟨u, hu, hsu⟩ : ∃ u, u = _ ∧ Leads cfg d env (2 + 3) _ u :=
    ⟨_, rfl, hst.trans (read_block hpc hfilp hok)⟩
  have hpc' : u.pc d = .read req (.finish (s.readVal env)) := by
    rw [hu, goto_pc_self]
  have hwq' : u.writePdmaWq = [] := by
    simpa [hu, ht, State.goto, State.logs, State.log] using hwq
  have hall := hsu.trans (read_ends hpc' (by rw [hu]; exact hfilp) hwq')
  rw [serveRequest, exec_cons, step, Option.bind_some, exec_replicate_run, htake,
    hall.iterate (goto_pc_self _ _ _) (by decide)]
  simp [hu, ht, State.serveRead, State.goto, State.log, State.logs, update_idle h.pc]
  rfl

end

end PdmaXen.Dom0
