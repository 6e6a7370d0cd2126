import PdmaXen.Dom0.Recovery

/-!
# The READs of one session

`do_read_resp` for the READ requests of the domain that owns the device, from the first
one on. `ctrl` is a local variable: only a READ that finds `readed_sz` at zero sets its
value.
-/

namespace PdmaXen.Dom0
set_option autoImplicit false
open Machine

/-! ## One READ -/

namespace State

def Ends (cfg : Config) (s : State) (env : Env) : Prop := s.readVal env ≤ s.readedSz + cfg.wtBlockSz

instance (cfg : Config) (s : State) (env : Env) : Decidable (s.Ends cfg env) :=
  inferInstanceAs (Decidable (_ ≤ _))

def readEvents (cfg : Config) (s : State) (d : Dom) (req : Request) (env : Env) : List Event :=
  .take d req :: ((if s.readedSz = 0 then [.op d .regRead] else []) ++
    .op d (.read (s.readVal env) true) :: .response d (makeResponse req (some (s.readVal env))) ::
      if s.Ends cfg env then [.op d (.regWrite 1)] else [])

def answerRead (cfg : Config) (s : State) (d : Dom) (req : Request) (env : Env) : State :=
  if s.Ends cfg env then
    { s with
      readedSz := 0
      wtingDomuId := none
      writePdmaWs := if s.writePdmaWq = [] then s.writePdmaWs else true
      writePdmaWq := []
      trace := s.trace ++ s.readEvents cfg d req env }
  else
    { s with
      readedSz := s.readedSz + cfg.wtBlockSz
      trace := s.trace ++ s.readEvents cfg d req env }

end State

section
variable {cfg : Config} {d : Dom} {env : Env} {s : State} {req : Request}

theorem read_closes {val : UInt32} (hpc : s.pc d = .read req (.finish val))
    (hfilp : s.chrifFilp = .opened) :
    Leads cfg d env 7 s ((if val ≤ s.readedSz then
      { s with
        readedSz := 0
        wtingDomuId := none
        writePdmaWs := if s.writePdmaWq = [] then s.writePdmaWs else true
        writePdmaWq := [] }.logs [.op d (.regWrite 1)]
      else s).goto d .idle) := by
  by_cases hle : val ≤ s.readedSz
  · by_cases hwq : s.writePdmaWq = []
    · refine ⟨5, by decide, ?_⟩
      simp [Function.iterate_succ_apply, State.threadStep, State.readStep, State.goto, State.call,
        State.log, State.logs, hpc, hfilp, hwq, hle]
    · refine ⟨7, by decide, ?_⟩
      simp [Function.iterate_succ_apply, State.threadStep, State.readStep, State.goto, State.call,
        State.log, State.logs, hpc, hfilp, hwq, hle]
  · refine ⟨1, by decide, ?_⟩
    simp [State.threadStep, State.readStep, State.goto, hpc, hle]

theorem exec_answerRead (hpc : s.pc d = .idle) (hfilp : s.chrifFilp = .opened)
    (hop : req.operation = .read) (hok : env.ok = true) :
    exec (step cfg) s (serveRequest d req env) = some (s.answerRead cfg d req env) := by
  have htake : s.takeStep d req = (s.log (.take d req)).goto d (.read req .regTest) := by
    simp [State.takeStep, State.begin, hpc, hop]
  obtain ⟨t, ht, hst⟩ : ∃ t, t = _ ∧ Leads cfg d env 2 _ t :=
    ⟨_, rfl, read_starts (s := (s.log (.take d req)).goto d (.read req .regTest)) (d := d)
      (goto_pc_self _ _ _) hfilp⟩
  have hpct : t.pc d = .read req (.block (s.readVal env)) := by
    rw [ht, goto_pc_self]
    rfl
  have hfilpt : t.chrifFilp = .opened := by
    simpa [ht, State.goto, State.logs, State.log] using hfilp
  obtain ⟨u, hu, hsu⟩ : ∃ u, u = _ ∧ Leads cfg d env (2 + 3) _ u :=
    ⟨_, rfl, hst.trans (read_block hpct hfilpt hok)⟩
  have hpcu : u.pc d = .read req (.finish (s.readVal env)) := by
    rw [hu, goto_pc_self]
  have hall := hsu.trans (read_closes hpcu (by rw [hu]; exact hfilpt))
  rw [serveRequest, exec_cons, step, Option.bind_some, exec_replicate_run, htake,
    hall.iterate (goto_pc_self _ _ _) (by decide)]
  by_cases hle : s.readVal env ≤ s.readedSz + cfg.wtBlockSz
  · simp [hu, ht, State.answerRead, State.Ends, State.readEvents, State.goto, State.log, State.logs,
      update_idle hpc, hle]
    rfl
  · simp [hu, ht, State.answerRead, State.Ends, State.readEvents, State.goto, State.log, State.logs,
      update_idle hpc, hle]
    rfl

theorem answerRead_pc : (s.answerRead cfg d req env).pc = s.pc := by
  unfold State.answerRead
  split <;> rfl

theorem answerRead_chrifFilp : (s.answerRead cfg d req env).chrifFilp = s.chrifFilp := by
  unfold State.answerRead
  split <;> rfl

theorem answerRead_trace :
    (s.answerRead cfg d req env).trace = s.trace ++ s.readEvents cfg d req env := by
  unfold State.answerRead
  split <;> rfl

theorem answerRead_of_ends (h : s.Ends cfg env) :
    (s.answerRead cfg d req env).readedSz = 0 ∧
      (s.answerRead cfg d req env).wtingDomuId = none := by
  rw [State.answerRead, if_pos h]
  exact ⟨rfl, rfl⟩

theorem answerRead_of_not_ends (h : ¬ s.Ends cfg env) :
    (s.answerRead cfg d req env).readedSz = s.readedSz + cfg.wtBlockSz ∧
      (s.answerRead cfg d req env).wtingDomuId = s.wtingDomuId := by
  rw [State.answerRead, if_neg h]
  exact ⟨rfl, rfl⟩

end

/-! ## What the front end gets -/

/-- The answers to READs in a trace: which block of the device lies in the page, counted from the
`n` read before, and the length reported with it. -/
def answers : Nat → List Event → List (Nat × Option UInt32)
  | _, [] => []
  | n, .op _ (.read _ true) :: es => answers (n + 1) es
  | n, .response _ resp :: es =>
    if resp.operation = .read then (n, resp.length) :: answers n es else answers n es
  | n, _ :: es => answers n es

theorem answers_readEvents (cfg : Config) (s : State) (d : Dom) {req : Request} (env : Env)
    (hop : req.operation = .read) (n : Nat) (es : List Event) :
    answers n (s.readEvents cfg d req env ++ es) =
      (n + 1, some (s.readVal env)) :: answers (n + 1) es := by
  have hstart : ∀ rest, answers n ((if s.readedSz = 0 then [.op d .regRead] else []) ++ rest) =
      answers n rest := by
    intro rest
    split <;> rfl
  have hend : answers (n + 1) ((if s.Ends cfg env then [.op d (.regWrite 1)] else []) ++ es) =
      answers (n + 1) es := by
    split <;> rfl
  simp only [State.readEvents, List.cons_append, List.append_assoc, answers, hstart, makeResponse,
    hop, if_true, hend]

/-! ## The session -/

section
variable (cfg : Config) (d : Dom) (reqs : Nat → Request) (len : UInt32) (stale : Nat → UInt32)

/-- The device answers every call; its length register holds `len`. -/
def sessionEnv (k : Nat) : Env := { reg := some len, stale := stale k }

def readLabels (n : Nat) : List Label :=
  (List.range n).flatMap fun k => serveRequest d (reqs k) (sessionEnv len stale k)

def afterAnswers (s : State) : Nat → State
  | 0 => s
  | n + 1 => (afterAnswers s n).answerRead cfg d (reqs n) (sessionEnv len stale n)

/-- The answer is `len` bytes in whole blocks: as many READs as it has blocks, each with the next
block and the length, and the device is released with the last one. -/
structure Answered (s : State) : Prop where
  complete : ∃ t es, exec (step cfg) s (readLabels d reqs len stale (blocksOf cfg len)) = some t ∧
    t.trace = s.trace ++ es ∧
    answers 0 es = (List.range (blocksOf cfg len)).map (fun k => (k + 1, some len)) ∧
    t.readedSz = 0 ∧ t.wtingDomuId = none
  not_before : ∀ k < blocksOf cfg len, ∀ t,
    exec (step cfg) s (readLabels d reqs len stale k) = some t → t.wtingDomuId = some d

/-- What an unset `ctrl.val` holds at the later READs is the length, and the count of the last block
does not wrap around. -/
def StaleHolds : Prop :=
  (∀ k, 0 < k → k < blocksOf cfg len → stale k = len) ∧
    blocksOf cfg len * cfg.wtBlockSz.toNat < 2 ^ 32

/-- The first READ of a session: the domain owns the device and has read nothing. -/
structure SessionStart (s : State) : Prop where
  pc : s.pc d = .idle
  filp : s.chrifFilp = .opened
  owner : s.wtingDomuId = some d
  readedSz : s.readedSz = 0

variable {cfg d reqs len stale} {s : State} {n : Nat}

theorem exec_afterAnswers (hs : SessionStart d s) (hop : ∀ k, (reqs k).operation = .read) :
    exec (step cfg) s (readLabels d reqs len stale n) =
        some (afterAnswers cfg d reqs len stale s n) ∧
      (afterAnswers cfg d reqs len stale s n).pc d = .idle ∧
      (afterAnswers cfg d reqs len stale s n).chrifFilp = .opened := by
  induction n with
  | zero => exact ⟨rfl, hs.pc, hs.filp⟩
  | succ n ih =>
    obtain ⟨hrun, hpc, hfilp⟩ := ih
    refine ⟨?_, ?_, ?_⟩
    · rw [readLabels, List.range_succ, List.flatMap_append, List.flatMap_singleton, exec_append,
        ← readLabels, hrun, Option.bind_some]
      exact exec_answerRead hpc hfilp (hop n) rfl
    · rw [afterAnswers, answerRead_pc]
      exact hpc
    · rw [afterAnswers, answerRead_chrifFilp]
      exact hfilp

def reported (cfg : Config) (d : Dom) (reqs : Nat → Request) (len : UInt32) (stale : Nat → UInt32)
    (s : State) (k : Nat) : UInt32 :=
  (afterAnswers cfg d reqs len stale s k).readVal (sessionEnv len stale k)

variable (cfg d len stale s n) in
theorem trace_afterAnswers (hop : ∀ k, (reqs k).operation = .read) :
    ∃ es, (afterAnswers cfg d reqs len stale s n).trace = s.trace ++ es ∧ ∀ rest,
      answers 0 (es ++ rest) = (List.range n).map (fun k =>
        (k + 1, some (reported cfg d reqs len stale s k))) ++ answers n rest := by
  induction n with
  | zero =>
    refine ⟨[], (List.append_nil _).symm, ?_⟩
    intro rest
    rfl
  | succ n ih =>
    obtain ⟨es, htrace, hanswers⟩ := ih
    refine ⟨es ++ (afterAnswers cfg d reqs len stale s n).readEvents cfg d (reqs n)
      (sessionEnv len stale n), ?_, ?_⟩
    · rw [afterAnswers, answerRead_trace, htrace, List.append_assoc]
    · intro rest
      rw [List.append_assoc, hanswers, answers_readEvents cfg _ d _ (hop n), List.range_succ,
        List.map_append, List.append_assoc]
      rfl

/-! ## The byte count and the unset length -/

theorem count_afterAnswers (hs : SessionStart d s)
    (hown : ∀ j ≤ n, (afterAnswers cfg d reqs len stale s j).wtingDomuId = some d) :
    (afterAnswers cfg d reqs len stale s n).readedSz = UInt32.ofNat n * cfg.wtBlockSz := by
  induction n with
  | zero =>
    rw [afterAnswers, hs.readedSz]
    simp
  | succ n ih =>
    have hlast := hown (n + 1) (Nat.le_refl _)
    rw [afterAnswers] at hlast ⊢
    have hnot : ¬ (afterAnswers cfg d reqs len stale s n).Ends cfg (sessionEnv len stale n) := by
      intro hends
      rw [(answerRead_of_ends hends).2] at hlast
      cases hlast
    rw [(answerRead_of_not_ends hnot).1, ih fun j hj => hown j (by omega), UInt32.ofNat_add,
      UInt32.add_mul]
    exact congrArg _ (UInt32.one_mul _).symm

theorem toNat_count_add (cfg : Config) (k : Nat) :
    (UInt32.ofNat k * cfg.wtBlockSz + cfg.wtBlockSz).toNat
      = (k + 1) * cfg.wtBlockSz.toNat % 2 ^ 32 := by
  rw [UInt32.toNat_add, UInt32.toNat_mul, UInt32.toNat_ofNat', Nat.mod_mul_mod, Nat.mod_add_mod,
    Nat.succ_mul]

theorem reported_eq (hblk : 0 < cfg.wtBlockSz.toNat) (hs : SessionStart d s)
    (hn : n < blocksOf cfg len)
    (hown : ∀ j ≤ n, (afterAnswers cfg d reqs len stale s j).wtingDomuId = some d) :
    reported cfg d reqs len stale s n = if n = 0 then len else stale n := by
  have hcount := count_afterAnswers hs hown
  rw [reported, State.readVal, hcount]
  rcases Nat.eq_zero_or_pos n with h0 | hpos
  · subst h0
    simp [sessionEnv]
  · have hlt := mul_lt_of_lt_blocksOf hpos hn
    have hlen := len.toNat_lt
    have hnat := toNat_count (k := n) (by omega) hblk
    have hmul := Nat.mul_pos hpos hblk
    have hne : UInt32.ofNat n * cfg.wtBlockSz ≠ 0 := by
      intro hzero
      rw [hzero] at hnat
      simp only [UInt32.toNat_zero] at hnat
      omega
    rw [if_neg hne, if_neg (by omega)]
    rfl

theorem ends_iff (hs : SessionStart d s)
    (hown : ∀ j ≤ n, (afterAnswers cfg d reqs len stale s j).wtingDomuId = some d) :
    (afterAnswers cfg d reqs len stale s n).Ends cfg (sessionEnv len stale n) ↔
      (reported cfg d reqs len stale s n).toNat ≤ (n + 1) * cfg.wtBlockSz.toNat % 2 ^ 32 := by
  rw [State.Ends, count_afterAnswers hs hown, UInt32.le_iff_toNat_le, toNat_count_add]
  rfl

/-! ## When a session is answered -/

theorem owner_of_answered (hs : SessionStart d s) (hop : ∀ k, (reqs k).operation = .read)
    (h : Answered cfg d reqs len stale s) (hn : n < blocksOf cfg len) :
    ∀ j ≤ n, (afterAnswers cfg d reqs len stale s j).wtingDomuId = some d :=
  fun j hj => h.not_before j (by omega) _ (exec_afterAnswers hs hop).1

theorem staleHolds_of_answered (hblk : 0 < cfg.wtBlockSz.toNat) (hs : SessionStart d s)
    (hop : ∀ k, (reqs k).operation = .read) (h : Answered cfg d reqs len stale s) :
    StaleHolds cfg len stale := by
  obtain ⟨t, es, hrun, htrace, hanswers, _, hreleased⟩ := h.complete
  have ht : t = afterAnswers cfg d reqs len stale s (blocksOf cfg len) :=
    Option.some.inj (hrun.symm.trans (exec_afterAnswers hs hop).1)
  have hreported : ∀ k < blocksOf cfg len, reported cfg d reqs len stale s k = len := by
    obtain ⟨es', htrace', hanswers'⟩ := trace_afterAnswers cfg d len stale s
      (blocksOf cfg len) hop
    rw [← ht, htrace] at htrace'
    have hes := List.append_cancel_left htrace'
    have hlist := hanswers' []
    rw [List.append_nil, ← hes, hanswers, answers, List.append_nil] at hlist
    intro k hk
    have hcell := congrArg (fun l => l[k]?) hlist
    simpa [hk] using hcell.symm
  refine ⟨?_, ?_⟩
  · intro k hpos hk
    have := reported_eq hblk hs hk (owner_of_answered hs hop h hk)
    rwa [if_neg (by omega), hreported k hk, eq_comm] at this
  · obtain ⟨n, hn⟩ : ∃ n, blocksOf cfg len = n + 1 :=
      Nat.exists_eq_succ_of_ne_zero (Nat.pos_iff_ne_zero.mp (blocksOf_pos cfg len))
    have hown := owner_of_answered hs hop h (n := n) (by omega)
    have hends : (afterAnswers cfg d reqs len stale s n).Ends cfg (sessionEnv len stale n) := by
      by_contra hnot
      rw [ht, hn, afterAnswers, (answerRead_of_not_ends hnot).2, hown n (Nat.le_refl _)] at hreleased
      cases hreleased
    have hle := (ends_iff hs hown).mp hends
    rw [hreported n (by omega)] at hle
    rw [hn]
    by_contra hover
    rcases Nat.eq_zero_or_pos n with h0 | hpos
    · subst h0
      have := cfg.wtBlockSz.toNat_lt
      omega
    · have hlt : n * cfg.wtBlockSz.toNat < len.toNat := mul_lt_of_lt_blocksOf hpos (by omega)
      have hblklt := cfg.wtBlockSz.toNat_lt
      have hlenlt := len.toNat_lt
      rw [Nat.succ_mul] at hle hover
      omega

theorem owner_of_staleHolds (hblk : 0 < cfg.wtBlockSz.toNat) (hs : SessionStart d s)
    (h : StaleHolds cfg len stale) (hn : n < blocksOf cfg len) :
    ∀ j ≤ n, (afterAnswers cfg d reqs len stale s j).wtingDomuId = some d := by
  induction n with
  | zero =>
    intro j hj
    have hj0 : j = 0 := by omega
    rw [hj0]
    exact hs.owner
  | succ n ih =>
    have hown := ih (by omega)
    have hreported := reported_eq hblk hs (by omega) hown
    have hlen : (if n = 0 then len else stale n) = len := by
      split
      · rfl
      · exact h.1 n (by omega) (by omega)
    have hlt : (n + 1) * cfg.wtBlockSz.toNat < len.toNat := mul_lt_of_lt_blocksOf (by omega) hn
    have hnot : ¬ (afterAnswers cfg d reqs len stale s n).Ends cfg (sessionEnv len stale n) := by
      rw [ends_iff hs hown, hreported, hlen,
        Nat.mod_eq_of_lt (by have := len.toNat_lt; omega)]
      omega
    intro j hj
    rcases Nat.lt_or_eq_of_le hj with hlt' | heq
    · exact hown j (by omega)
    · rw [heq, afterAnswers, (answerRead_of_not_ends hnot).2]
      exact hown n (Nat.le_refl _)

theorem answered_of_staleHolds (hblk : 0 < cfg.wtBlockSz.toNat) (hs : SessionStart d s)
    (hop : ∀ k, (reqs k).operation = .read) (h : StaleHolds cfg len stale) :
    Answered cfg d reqs len stale s := by
  have hown : ∀ k < blocksOf cfg len,
      ∀ j ≤ k, (afterAnswers cfg d reqs len stale s j).wtingDomuId = some d :=
    fun k hk => owner_of_staleHolds hblk hs h hk
  have hreported : ∀ k < blocksOf cfg len, reported cfg d reqs len stale s k = len := by
    intro k hk
    rw [reported_eq hblk hs hk (hown k hk)]
    split
    · rfl
    · exact h.1 k (by omega) hk
  obtain ⟨n, hn⟩ : ∃ n, blocksOf cfg len = n + 1 :=
    Nat.exists_eq_succ_of_ne_zero (Nat.pos_iff_ne_zero.mp (blocksOf_pos cfg len))
  have hends : (afterAnswers cfg d reqs len stale s n).Ends cfg (sessionEnv len stale n) := by
    have hle : len.toNat ≤ blocksOf cfg len * cfg.wtBlockSz.toNat := le_blocksOf_mul hblk
    have hfits := h.2
    rw [ends_iff hs (hown n (by omega)), hreported n (by omega)]
    rw [hn] at hle hfits
    rwa [Nat.mod_eq_of_lt hfits]
  obtain ⟨es, htrace, hanswers⟩ := trace_afterAnswers cfg d len stale s
      (blocksOf cfg len) hop
  constructor
  · refine ⟨_, es, (exec_afterAnswers hs hop).1, htrace, ?_, ?_⟩
    · have hlist := hanswers []
      rw [List.append_nil, answers, List.append_nil] at hlist
      rw [hlist]
      apply List.map_congr_left
      intro k hk
      rw [hreported k (List.mem_range.mp hk)]
    · rw [hn, afterAnswers]
      exact answerRead_of_ends hends
  · intro k hk t hrun
    rw [(exec_afterAnswers hs hop).1] at hrun
    cases hrun
    exact hown k hk k (Nat.le_refl _)

theorem staleHolds_of_one_block (hlen : len ≤ cfg.wtBlockSz) (stale : Nat → UInt32) :
    StaleHolds cfg len stale := by
  have hle := UInt32.le_iff_toNat_le.mp hlen
  have hblklt := cfg.wtBlockSz.toNat_lt
  have hone : blocksOf cfg len = 1 := by
    by_contra hne
    have hpos := blocksOf_pos cfg len
    have : 1 * cfg.wtBlockSz.toNat < len.toNat := mul_lt_of_lt_blocksOf (by omega) (by omega)
    omega
  rw [StaleHolds, hone]
  refine ⟨fun k hpos hk => by omega, by omega⟩

/-- Read by read, the answer is right when the unset variable happens to hold the length at every
READ after the first and the last count does not wrap around. Whatever the variable holds, it is
right exactly for the answers of one block. -/
theorem session_answered_iff (hblk : 0 < cfg.wtBlockSz.toNat) (hs : SessionStart d s)
    (hop : ∀ k, (reqs k).operation = .read) :
    (∀ stale, Answered cfg d reqs len stale s ↔ StaleHolds cfg len stale) ∧
      ((∀ stale, Answered cfg d reqs len stale s) ↔ len ≤ cfg.wtBlockSz) := by
  have hiff : ∀ stale, Answered cfg d reqs len stale s ↔ StaleHolds cfg len stale :=
    fun stale => ⟨staleHolds_of_answered hblk hs hop, answered_of_staleHolds hblk hs hop⟩
  refine ⟨hiff, ?_, ?_⟩
  · intro h
    have hother := ((hiff fun _ => len + 1).mp (h _)).1
    have hle : len.toNat ≤ blocksOf cfg len * cfg.wtBlockSz.toNat := le_blocksOf_mul hblk
    by_contra hnot
    rw [UInt32.le_iff_toNat_le] at hnot
    have hmany : 1 < blocksOf cfg len := by
      by_contra hfew
      have hone : blocksOf cfg len = 1 := by
        have := blocksOf_pos cfg len
        omega
      rw [hone] at hle
      omega
    have hne := hother 1 (by omega) hmany
    have hnat := congrArg UInt32.toNat hne
    rw [UInt32.toNat_add] at hnat
    have hlt := len.toNat_lt
    have hone : (1 : UInt32).toNat = 1 := rfl
    omega
  · intro hlen stale
    exact (hiff stale).mpr (staleHolds_of_one_block hlen stale)

end

def owned : State := { chrifFilp := .opened, openCnt := 1, wtingDomuId := some 1 }

theorem session_answered_iff_owned :
    ((∀ stale, Answered ⟨4096⟩ 1 (fun _ => ⟨0, .read, 0, 12000⟩) 12000 stale owned ↔
        StaleHolds ⟨4096⟩ 12000 stale) ∧
      ((∀ stale, Answered ⟨4096⟩ 1 (fun _ => ⟨0, .read, 0, 12000⟩) 12000 stale owned) ↔
        (12000 : UInt32) ≤ (⟨4096⟩ : Config).wtBlockSz)) :=
  session_answered_iff (by decide) ⟨rfl, rfl, rfl, rfl⟩ (fun _ => rfl)

/-- An answer of two blocks: the second READ reports what the variable held before. -/
theorem second_read_reports_garbage :
    ¬ ∀ (cfg : Config) (d : Dom) (reqs : Nat → Request) (len : UInt32) (stale : Nat → UInt32)
      (s : State), 0 < cfg.wtBlockSz.toNat → SessionStart d s →
      (∀ k, (reqs k).operation = .read) → Answered cfg d reqs len stale s := by
  intro h
  have hstart : SessionStart 1 owned := ⟨rfl, rfl, rfl, rfl⟩
  have hanswered := h ⟨4096⟩ 1 (fun _ => ⟨0, .read, 0, 8192⟩) 8192 (fun _ => 0) owned (by decide)
    hstart (fun _ => rfl)
  have hstale := (staleHolds_of_answered (by decide) hstart (fun _ => rfl) hanswered).1 1 (by decide)
    (by decide)
  exact absurd hstale (by decide)

end PdmaXen.Dom0
