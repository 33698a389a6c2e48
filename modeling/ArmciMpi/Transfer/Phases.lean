import ArmciMpi.Lib.Phases
import ArmciMpi.Transfer.Nonblocking

/-!
# Programs with barriers

Processes that call the one-sided operations in phases and meet in
`PARMCI_Barrier` after each of them. Puts and accumulates return with their
operations in flight, and nonblocking calls may return before anything has been
read or written. A process can wait for its own operations, and
`PARMCI_AllFence` at the start of the barrier completes them all; a process leaves
the barrier when all have come to it.

In a phase no call may depend on another one that is under way: a process does
not access what another one writes, and not what it has itself put or
accumulated to and not fenced, except that integers may be accumulated to by all.
Buffers of a nonblocking call are left alone until a wait. `phases_in_order` says
that then every run comes to an end, with the memory that the calls give one
after the other.
-/

namespace ArmciMpi

open Lib Script

/-- `ARMCII_Sync`. -/
def armciiSync (env : Env) : Script Act Unit := forEach gmrSync env.regions

namespace Phases

-- ------------------------------
-- Requests
-- ------------------------------

inductive Request
  | call (proc : Nat) (c : Call)
  | nb (proc : Nat) (c : Call) (handle : Option Nat)
  | fence (proc : Nat)
  | allFence
  | waitProc (proc : Nat)
  | waitAll

namespace Request

def run (env : Env) : Request → Script Act Unit
  | call proc c => c.run env proc
  | nb proc c handle => c.nb.run env proc handle
  | fence proc => parmciFence env proc
  | allFence => parmciAllFence env
  | waitProc proc => parmciWaitProc env proc
  | waitAll => parmciWaitAll env

def items (me : Nat) : Request → List Item
  | call proc c => c.transfers.map fun t => .access ⟨me, proc, t, false⟩
  | nb proc c _ => c.transfers.map fun t => .access ⟨me, proc, t, true⟩
  | fence proc => [.flush true {proc}]
  | allFence => [.flush true Set.univ]
  | waitProc proc => [.flush false {proc}]
  | waitAll => [.flush false Set.univ]

/-- The arguments are correct: valid transfers, of which a nonblocking one releases no buffer
that is in use, and for a fence of one process a process that is in the groups of all regions. -/
def Correct (env : Env) (arena : Set Int) : Request → Prop
  | call proc c => c.Valid env proc arena
  | nb proc c _ => c.Valid env proc arena ∧ c.nb.Settled env proc
  | fence proc | waitProc proc => env.AllReach proc
  | allFence | waitAll => True

def Feasible (env : Env) (r : Request) (h : List Act) : Prop :=
  match r with
  | call proc c => c.Feasible env proc (c.run env proc h).2
  | nb proc c handle => c.Feasible env proc (c.nb.run env proc handle h).2
  | fence _ | allFence | waitProc _ | waitAll => True

end Request

section
variable {env : Env} {arena : Set Int}

def Act.WaitsFor (me : Nat) (full : Bool) (covered : Rma → Prop) (a : Act) : Prop :=
  ∃ f l, a.steps me = [.wait f l] ∧ ∀ op, covered op → if full = true then f op else l op

theorem flushAct_waits (env : Env) (me : Nat) (localOnly : Bool) (win : Win) (g : Nat) :
    Act.WaitsFor me (!localOnly || env.cfg.endToEndFlush) (·.On win g)
      (flushAct env localOnly win g) := by
  unfold flushAct
  cases hfull : !localOnly || env.cfg.endToEndFlush with
  | true => exact ⟨_, _, rfl, fun _ hon => hon⟩
  | false => exact ⟨_, _, rfl, fun _ hon => ⟨rfl, hon⟩⟩

theorem flushallAct_waits (env : Env) (me : Nat) (localOnly : Bool) (win : Win) :
    Act.WaitsFor me (!localOnly || env.cfg.endToEndFlush) (·.win.id = win.id)
      (flushallAct env localOnly win) := by
  unfold flushallAct
  cases hfull : !localOnly || env.cfg.endToEndFlush with
  | true => exact ⟨_, _, rfl, fun _ hon => hon⟩
  | false => exact ⟨_, _, rfl, fun _ hon => ⟨rfl, hon⟩⟩

theorem flushes_of_acts {full : Bool} {procs : Set Nat} {acts : List Act}
    (hwaits : ∀ a ∈ acts, ∃ covered,
      Act.WaitsFor env.me (full || env.cfg.endToEndFlush) covered a)
    (hcovers : ∀ proc ∈ procs, ∀ win, ∀ g : Nat, env.Live win → win.comm.rankOf proc = some g →
      ∃ a ∈ acts, Act.WaitsFor env.me (full || env.cfg.endToEndFlush) (·.On win g) a) :
    Flushes env full procs acts where
  waits := by
    intro step hstep
    obtain ⟨a, ha, hstep⟩ := List.mem_flatMap.mp hstep
    obtain ⟨_, f, l, hsteps, -⟩ := hwaits a ha
    rw [hsteps] at hstep
    exact ⟨f, l, List.mem_singleton.mp hstep⟩
  covers := by
    intro proc hproc win g hlive hrank op hon
    obtain ⟨a, ha, f, l, hsteps, hcov⟩ := hcovers proc hproc win g hlive hrank
    refine ⟨f, l, List.mem_flatMap.mpr ⟨a, ha, hsteps ▸ List.mem_singleton_self _⟩, ?_⟩
    simpa only [Bool.or_eq_true] using hcov op hon

/-- `PARMCI_Fence` and `PARMCI_WaitProc` wait for what is in flight to the process. -/
theorem flushes_flushOf (env : Env) (proc : Nat) (localOnly : Bool) :
    Flushes env (!localOnly) {proc} (env.regions.flatMap (flushOf env proc localOnly)) := by
  refine flushes_of_acts (fun a ha => ?_) fun p hp win g hlive hrank => ?_
  · obtain ⟨mreg, -, ha⟩ := List.mem_flatMap.mp ha
    unfold flushOf at ha
    split at ha
    · obtain ⟨g, -, rfl⟩ := Option.map_eq_some_iff.mp (Option.mem_toList.mp ha)
      exact ⟨_, flushAct_waits env env.me localOnly _ g⟩
    · cases ha
  · obtain ⟨mreg, hmem, hwin⟩ := hlive
    obtain rfl := Set.mem_singleton_iff.mp hp
    refine ⟨_, List.mem_flatMap.mpr ⟨mreg, hmem, ?_⟩, flushAct_waits env env.me localOnly win g⟩
    simp [flushOf, hwin, hrank]

/-- The actions of `PARMCI_AllFence` and `PARMCI_WaitAll`. -/
def flushallActs (env : Env) (localOnly : Bool) : List Act :=
  env.regions.flatMap fun mreg => (mreg.window.map (flushallAct env localOnly)).toList

theorem flushes_flushallActs (env : Env) (localOnly : Bool) :
    Flushes env (!localOnly) Set.univ (flushallActs env localOnly) := by
  refine flushes_of_acts (fun a ha => ?_) fun p _ win g hlive _ => ?_
  · obtain ⟨mreg, -, ha⟩ := List.mem_flatMap.mp ha
    obtain ⟨win, -, rfl⟩ := Option.map_eq_some_iff.mp (Option.mem_toList.mp ha)
    exact ⟨_, flushallAct_waits env env.me localOnly win⟩
  · obtain ⟨mreg, hmem, hwin⟩ := hlive
    obtain ⟨f, l, hsteps, hcov⟩ := flushallAct_waits env env.me localOnly win
    exact ⟨_, List.mem_flatMap.mpr ⟨mreg, hmem, by simp [hwin]⟩, f, l, hsteps,
      fun op hon => hcov op hon.1⟩

theorem Flushes.performs {full : Bool} {procs : Set Nat} {acts : List Act}
    (h : Flushes env full procs acts) : Performs env arena [.flush full procs] acts := by
  rw [← List.append_nil acts]
  exact .flush h .nil

theorem Request.performs (ha : env.Allocs arena) {r : Request} (hr : r.Correct env arena)
    {h : List Act} (hf : r.Feasible env h) :
    ∃ acts, r.run env h = (.ok (), acts) ∧ Performs env arena (r.items env.me) acts := by
  cases r with
  | call proc c =>
    obtain ⟨_, acts, hrun⟩ := (Call.returns ha hr.toCorrect h hf).run
    exact ⟨acts, hrun, performs_of_carries (Call.carries ha hr.toCorrect hrun)⟩
  | nb proc c handle => exact Call.nb_performs ha hr.1.toCorrect hr.2 handle h hf
  | fence proc => exact ⟨_, flushEach_ok hr false h, (flushes_flushOf env proc false).performs⟩
  | allFence => exact ⟨_, flushallEach_ok env false h, (flushes_flushallActs env false).performs⟩
  | waitProc proc => exact ⟨_, flushEach_ok hr true h, (flushes_flushOf env proc true).performs⟩
  | waitAll => exact ⟨_, flushallEach_ok env true h, (flushes_flushallActs env true).performs⟩

end

-- ------------------------------
-- A phase of one process
-- ------------------------------

/-- From the return of one `MPI_Barrier` to the call of the next one: the end of a
`PARMCI_Barrier`, the calls of the phase, and the beginning of the next `PARMCI_Barrier`. -/
def phase (env : Env) (calls : List Request) : Script Act Unit := do
  armciiSync env
  forEach (Request.run env) calls
  parmciAllFence env

/-- The actions of `ARMCII_Sync`. -/
def syncActs (env : Env) : List Act :=
  env.regions.flatMap fun mreg => if mreg.unified then [] else (mreg.window.map Act.winSync).toList

section
variable {env : Env} {arena : Set Int} {calls : List Request}

theorem armciiSync_ok (env : Env) (h : List Act) : armciiSync env h = (.ok (), syncActs env) := by
  refine forEach_ok (fun mreg hmem h => ?_) h
  obtain ⟨win, hr⟩ := env.regions_ok mreg hmem
  simp only [gmrSync, hr.getWindow, lift_ok_bind, hr.window]
  split <;> rfl

theorem syncActs_steps (env : Env) (me : Nat) : actSteps me (syncActs env) = [] := by
  refine List.flatMap_eq_nil_iff.mpr fun a ha => ?_
  obtain ⟨mreg, -, ha⟩ := List.mem_flatMap.mp ha
  split at ha
  · cases ha
  · obtain ⟨win, -, rfl⟩ := Option.map_eq_some_iff.mp (Option.mem_toList.mp ha)
    rfl

theorem requests_perform (ha : env.Allocs arena) (hc : ∀ r ∈ calls, r.Correct env arena)
    {h : List Act} (hf : Along (Request.run env) (Request.Feasible env) calls h) :
    ∃ acts, forEach (Request.run env) calls h = (.ok (), acts) ∧
      Performs env arena (calls.flatMap (Request.items env.me)) acts := by
  induction calls generalizing h with
  | nil => exact ⟨[], rfl, .nil⟩
  | cons r calls ih =>
    obtain ⟨hr, hrest⟩ := List.forall_mem_cons.mp hc
    obtain ⟨hone, hthen⟩ := hf
    obtain ⟨a, hrun, hperf⟩ := Request.performs ha hr hone
    rw [hrun] at hthen
    obtain ⟨acts, hacts, hperfs⟩ := ih hrest hthen
    exact ⟨_, bind_ok hrun hacts, hperf.append hperfs⟩

theorem phase_ok (ha : env.Allocs arena) (hc : ∀ r ∈ calls, r.Correct env arena) {h : List Act}
    (hf : Along (Request.run env) (Request.Feasible env) calls (h ++ syncActs env)) :
    ∃ acts, phase env calls h = (.ok (), syncActs env ++ (acts ++ flushallActs env false)) ∧
      Performs env arena (calls.flatMap (Request.items env.me)) acts := by
  obtain ⟨acts, hacts, hperf⟩ := requests_perform ha hc hf
  exact ⟨acts, bind_ok (armciiSync_ok env h) (bind_ok hacts (flushallEach_ok env false _)), hperf⟩

variable {items : List Item} {acts : List Act}

theorem phase_steps (env : Env) (acts : List Act) :
    actSteps env.me (syncActs env ++ (acts ++ flushallActs env false)) =
      actSteps env.me acts ++ actSteps env.me (flushallActs env false) := by
  rw [actSteps_append, actSteps_append, syncActs_steps, List.nil_append]

theorem phase_xfers (env : Env) (acts : List Act) :
    stepXfers (actSteps env.me (syncActs env ++ (acts ++ flushallActs env false))) =
      actXfers env.me acts := by
  rw [phase_steps, stepXfers_append, ← actXfers, ← actXfers, (flushes_flushallActs env false).xfers,
    List.append_nil]

theorem Performs.phase_free (h : Performs env arena items acts) (hord : Ordered env.cfg items) :
    RaceFree ∅ (actSteps env.me (syncActs env ++ (acts ++ flushallActs env false))) := by
  rw [phase_steps, raceFree_append]
  exact ⟨(h.safe hord fun _ hq => hq.elim).1, (flushes_flushallActs env false).raceFree _⟩

theorem Performs.phase_drained (h : Performs env arena items acts) (hord : Ordered env.cfg items) :
    after ∅ (actSteps env.me (syncActs env ++ (acts ++ flushallActs env false))) = ∅ := by
  refine Set.eq_empty_iff_forall_notMem.mpr fun q hq => ?_
  rw [phase_steps, after_append] at hq
  have hflush := flushes_flushallActs env false
  obtain ⟨⟨p, hp, hof⟩, hpass⟩ := after_waits_passes hflush.waits hq
  obtain ⟨a, hfly⟩ := (h.safe hord fun _ hq => hq.elim).2 p hp
  obtain ⟨win, g, hon, hrank, hlive⟩ := (hfly.of hof).inFlight.on
  obtain ⟨f, l, hmem, hcovers⟩ := hflush.covers a.proc trivial win g hlive hrank q.key hon
  rw [if_pos (.inl rfl)] at hcovers
  exact (hpass f l hmem).1 hcovers

end

-- ------------------------------
-- All processes
-- ------------------------------

/-- What each process calls in each phase, and what it did before. -/
structure Job where
  size : Nat
  env : Fin size → Env
  arena : Fin size → Set Int
  history : Fin size → List Act
  phases : List (Fin size → List Request)

namespace Job

def actsFrom (env : Fin n → Env) :
    (Fin n → List Act) → List (Fin n → List Request) → List (Fin n → List Act)
  | _, [] => []
  | h, ph :: phs =>
    (fun p => (phase (env p) (ph p) (h p)).2) ::
      actsFrom env (fun p => h p ++ (phase (env p) (ph p) (h p)).2) phs

def FeasibleFrom (env : Fin n → Env) : (Fin n → List Act) → List (Fin n → List Request) → Prop
  | _, [] => True
  | h, ph :: phs =>
    (∀ p, Along (Request.run (env p)) (Request.Feasible (env p)) (ph p) (h p ++ syncActs (env p))) ∧
      FeasibleFrom env (fun p => h p ++ (phase (env p) (ph p) (h p)).2) phs

def stepsOf (acts : Fin n → List Act) (p : Fin n) : List (Step Loc UInt8 Rma) := actSteps p (acts p)

variable (J : Job)

def steps : List (Fin J.size → List (Step Loc UInt8 Rma)) :=
  (actsFrom J.env J.history J.phases).map stepsOf

def items (ph : Fin J.size → List Request) (p : Fin J.size) : List Item :=
  (ph p).flatMap (Request.items p)

def accesses (ph : Fin J.size → List Request) (p : Fin J.size) : List Access :=
  (J.items ph p).flatMap Item.accesses

def inTurn (m : Mem) (ph : Fin J.size → List Request) : Mem :=
  Xfer.applyAll ((List.finRange J.size).flatMap fun p => (J.items ph p).flatMap Item.effect) m

def inOrder (m : Mem) : Mem := J.phases.foldl J.inTurn m

def settled : Set Loc := {l | ∀ p : Fin J.size, l ∉ scratch p (J.arena p)}

structure PhaseOk (ph : Fin J.size → List Request) : Prop where
  correct : ∀ p, ∀ r ∈ ph p, r.Correct (J.env p) (J.arena p)
  outside : ∀ p, ∀ a ∈ J.accesses ph p, a.sources ⊆ J.settled ∧ a.targets ⊆ J.settled
  own : ∀ p, Ordered (J.env p).cfg (J.items ph p)
  across : ∀ p q, p ≠ q → ∀ a ∈ J.accesses ph p, ∀ b ∈ J.accesses ph q, a.Clear b

structure Ok : Prop where
  me : ∀ p, (J.env p).me = p
  allocs : ∀ p, (J.env p).Allocs (J.arena p)
  each : ∀ ph ∈ J.phases, J.PhaseOk ph
  feasible : FeasibleFrom J.env J.history J.phases

variable {J}

structure Acts (J : Job) (ph : Fin J.size → List Request) (acts : Fin J.size → List Act) :
    Prop where
  performs : ∀ p, ∃ body, acts p = syncActs (J.env p) ++ (body ++ flushallActs (J.env p) false) ∧
    Performs (J.env p) (J.arena p) (J.items ph p) body

section
variable {ph : Fin J.size → List Request} {acts : Fin J.size → List Act}

theorem Ok.phase_acts (h : J.Ok) (hph : J.PhaseOk ph) {hist : Fin J.size → List Act}
    (hf : ∀ p, Along (Request.run (J.env p)) (Request.Feasible (J.env p)) (ph p)
      (hist p ++ syncActs (J.env p))) :
    (∀ p, (phase (J.env p) (ph p)).Returns (hist p)) ∧
      J.Acts ph fun p => (phase (J.env p) (ph p) (hist p)).2 := by
  have hrun := fun p => phase_ok (h.allocs p) (hph.correct p) (hf p)
  refine ⟨fun p => ?_, ⟨fun p => ?_⟩⟩
  · obtain ⟨body, hok, -⟩ := hrun p
    exact returns_of_ok hok
  · obtain ⟨body, hok, hperf⟩ := hrun p
    rw [h.me p] at hperf
    exact ⟨body, by rw [hok], hperf⟩

theorem Acts.body (hacts : J.Acts ph acts) (h : J.Ok) (p : Fin J.size) :
    ∃ body, Performs (J.env p) (J.arena p) (J.items ph p) body ∧
      stepsOf acts p = actSteps (J.env p).me (syncActs (J.env p) ++
        (body ++ flushallActs (J.env p) false)) ∧
      stepXfers (stepsOf acts p) = actXfers (J.env p).me body := by
  obtain ⟨body, heq, hperf⟩ := hacts.performs p
  have hsteps : stepsOf acts p = actSteps (J.env p).me (syncActs (J.env p) ++
      (body ++ flushallActs (J.env p) false)) := by
    rw [stepsOf, heq, h.me p]
  exact ⟨body, hperf, hsteps, hsteps ▸ phase_xfers (J.env p) body⟩

theorem scratch_apart {p q : Fin J.size} (hpq : p ≠ q) :
    Disjoint (scratch p (J.arena p)) (scratch q (J.arena q)) :=
  Set.disjoint_left.mpr fun _ hl hl' => hpq (Fin.ext (hl.1.symm.trans hl'.1))

theorem settled_scratch (p : Fin J.size) : Disjoint J.settled (scratch p (J.arena p)) :=
  Set.disjoint_left.mpr fun _ hl => hl p

theorem Acts.indep (h : J.Ok) (hph : J.PhaseOk ph) {p q : Fin J.size} (hpq : p ≠ q)
    {body body' : List Act} (hp : Performs (J.env p) (J.arena p) (J.items ph p) body)
    (hq : Performs (J.env q) (J.arena q) (J.items ph q) body') {x y : Xfer Loc UInt8}
    (hx : x ∈ actXfers (J.env p).me body) (hy : y ∈ actXfers (J.env q).me body') :
    x.Indep y := by
  obtain ⟨a, ha, hxsrc, hxdst⟩ := hp.foot hx
  obtain ⟨b, hb, hysrc, hydst⟩ := hq.foot hy
  rw [h.me p] at hxsrc hxdst
  rw [h.me q] at hysrc hydst
  obtain ⟨hasrc, hadst⟩ := hph.outside p a ha
  obtain ⟨hbsrc, hbdst⟩ := hph.outside q b hb
  -- what one of them writes the other one does not read
  have hread : ∀ {r t : Fin J.size} {u v : Xfer Loc UInt8} {c d : Access}, r ≠ t → c.Clear d →
      c.targets ⊆ J.settled → d.sources ⊆ J.settled →
      (u.dst ⊆ scratch r (J.arena r) ∨ c.Writes u) → v.src ⊆ d.sources ∪ scratch t (J.arena t) →
      Disjoint u.dst v.src := by
    intro r t u v c d hrt hcd hc hd hu hv
    refine Disjoint.mono_right hv (Disjoint.union_right ?_ ?_)
    · rcases hu with hu | hu
      · exact ((settled_scratch r).mono_left hd).symm.mono_left hu
      · exact hcd.reads.mono_left hu.dst
    · rcases hu with hu | hu
      · exact (scratch_apart hrt).mono_left hu
      · exact (settled_scratch t).mono_left (hu.dst.trans hc)
  have hab := hph.across p q hpq a ha b hb
  have hdst := hread hpq hab hadst hbsrc hxdst hysrc
  have hsrc := (hread hpq.symm (hph.across q p hpq.symm b hb a ha) hbdst hasrc hydst hxsrc).symm
  rcases hxdst with hx | hx
  · refine Xfer.indep_of_disjoint hdst hsrc ?_
    rcases hydst with hy | hy
    · exact (scratch_apart hpq).mono hx hy
    · exact ((settled_scratch p).mono_left (hy.dst.trans hbdst)).symm.mono_left hx
  · rcases hydst with hy | hy
    · exact Xfer.indep_of_disjoint hdst hsrc ((settled_scratch q).mono (hx.dst.trans hadst) hy)
    · exact hab.indep hx hy hsrc hdst

theorem Acts.phaseSafe (hacts : J.Acts ph acts) (h : J.Ok) (hph : J.PhaseOk ph) :
    PhaseSafe (stepsOf acts) := by
  refine ⟨fun p => ?_, fun p => ?_, fun p q hpq x hx y hy => ?_⟩
  · obtain ⟨body, hperf, hsteps, -⟩ := hacts.body h p
    exact hsteps ▸ hperf.phase_free (hph.own p)
  · obtain ⟨body, hperf, hsteps, -⟩ := hacts.body h p
    exact hsteps ▸ hperf.phase_drained (hph.own p)
  · obtain ⟨body, hperf, -, hxs⟩ := hacts.body h p
    obtain ⟨body', hperf', -, hys⟩ := hacts.body h q
    rw [hxs] at hx
    rw [hys] at hy
    exact Acts.indep h hph hpq hperf hperf' hx hy

theorem Acts.phaseMem_eqOn (hacts : J.Acts ph acts) (h : J.Ok) (hph : J.PhaseOk ph) {m m' : Mem}
    (hm : Set.EqOn m m' J.settled) :
    Set.EqOn (phaseMem (stepsOf acts) m) (J.inTurn m' ph) J.settled := by
  have hall : ∀ (ps : List (Fin J.size)) (m m' : Mem), Set.EqOn m m' J.settled →
      Set.EqOn (Xfer.applyAll (ps.flatMap fun p => stepXfers (stepsOf acts p)) m)
        (Xfer.applyAll (ps.flatMap fun p => (J.items ph p).flatMap Item.effect) m')
        J.settled := by
    intro ps
    induction ps with
    | nil => exact fun _ _ hm => hm
    | cons p ps ih =>
      intro m m' hm
      obtain ⟨body, hperf, -, hxs⟩ := hacts.body h p
      have heffect := hperf.effect_eqOn m
      rw [h.me p] at heffect hxs
      rw [List.flatMap_cons, List.flatMap_cons, Xfer.applyAll_append, Xfer.applyAll_append, hxs]
      refine ih _ _ ((heffect.mono fun l (hl : l ∈ J.settled) => hl p).trans
        (Xfer.applyAll_congr (fun x hx => ?_) hm))
      obtain ⟨a, ha, hx⟩ := mem_effect hx
      obtain ⟨hsrc, hdst⟩ := hph.outside p a ha
      exact ⟨(Access.effect_foot hx).1.trans hsrc, (Access.effect_foot hx).2.trans hdst⟩
  exact hall _ m m' hm

end

theorem Ok.steps_ok (h : J.Ok) {phs : List (Fin J.size → List Request)}
    (hphs : ∀ ph ∈ phs, J.PhaseOk ph) {hist : Fin J.size → List Act}
    (hf : FeasibleFrom J.env hist phs) {m m' : Mem} (hm : Set.EqOn m m' J.settled) :
    (∀ acts ∈ actsFrom J.env hist phs, PhaseSafe (stepsOf acts)) ∧
      Set.EqOn (phasesMem ((actsFrom J.env hist phs).map stepsOf) m) (phs.foldl J.inTurn m')
        J.settled := by
  induction phs generalizing hist m m' with
  | nil => exact ⟨by simp [actsFrom], hm⟩
  | cons ph phs ih =>
    obtain ⟨hph, hphs⟩ := List.forall_mem_cons.mp hphs
    have hacts := (h.phase_acts hph hf.1).2
    obtain ⟨hsafe, hmem⟩ := ih hphs hf.2 (hacts.phaseMem_eqOn h hph hm)
    exact ⟨List.forall_mem_cons.mpr ⟨hacts.phaseSafe h hph, hsafe⟩, hmem⟩

def Returns (env : Fin n → Env) : (Fin n → List Act) → List (Fin n → List Request) → Prop
  | _, [] => True
  | h, ph :: phs => (∀ p, (phase (env p) (ph p)).Returns (h p)) ∧
      Returns env (fun p => h p ++ (phase (env p) (ph p) (h p)).2) phs

theorem Ok.returns (h : J.Ok) {phs : List (Fin J.size → List Request)}
    (hphs : ∀ ph ∈ phs, J.PhaseOk ph) {hist : Fin J.size → List Act}
    (hf : FeasibleFrom J.env hist phs) : Returns J.env hist phs := by
  induction phs generalizing hist with
  | nil => trivial
  | cons ph phs ih =>
    obtain ⟨hph, hphs⟩ := List.forall_mem_cons.mp hphs
    exact ⟨(h.phase_acts hph hf.1).1, ih hphs hf.2⟩

end Job

/-- Processes that meet in barriers and are free of races in between: no call aborts, no run
goes on for ever, and every run that cannot go on has finished all phases with the memory
that the calls give when they take place one after the other. -/
theorem phases_in_order (J : Job) (h : J.Ok) (m : Mem) :
    Job.Returns J.env J.history J.phases ∧
    (WellFounded fun b a : Mem × (Fin J.size → Worker Loc UInt8 Rma) => PhaseStep a b) ∧
    ∀ m' ws, Relation.ReflTransGen PhaseStep (m, beginPhases J.steps) (m', ws) →
      (∀ s, ¬ PhaseStep (m', ws) s) →
      (∀ p, ws p = ⟨⟨[], []⟩, []⟩) ∧ Set.EqOn m' (J.inOrder m) J.settled := by
  refine ⟨h.returns h.each h.feasible, phaseStep_wellFounded, fun m' ws hrun hend => ?_⟩
  obtain ⟨hsafe, hmem⟩ := h.steps_ok h.each h.feasible (fun _ _ => rfl : Set.EqOn m m J.settled)
  obtain ⟨hover, rfl⟩ := phases_finish (List.forall_mem_map.mpr hsafe) hrun hend
  exact ⟨hover, hmem⟩

-- ------------------------------
-- Two processes
-- ------------------------------

def fromFirst (rs : List Request) (p : Fin 2) : List Request := if p.val = 0 then rs else []

/-- Process 0 puts four bytes to process 1 with a nonblocking call, waits, and gets other
bytes into the same buffer; after a barrier it gets the first ones back. -/
def putThenGet : Job where
  size := 2
  env p := pairEnv defaultState p 0
  arena _ := highArena
  history _ := []
  phases := [
    fromFirst [.nb 1 (.put 64 8192 4) none, .waitAll, .call 1 (.get 8200 64 4)],
    fromFirst [.call 1 (.get 8192 128 4)]]

theorem single_sources {kind : RmaKind} {b : BaseType} {n : Nat} {fill : List UInt8 → List UInt8}
    {loc rem : Int} (me proc : Nat) :
    (single kind b n fill loc rem).sources me proc =
      block (kind.ends me proc (loc, rem)).1 (n * b.size) := by
  ext l
  simp [Transfer.sources, single, Transfer.bytes]

theorem single_targets {kind : RmaKind} {b : BaseType} {n : Nat} {fill : List UInt8 → List UInt8}
    {loc rem : Int} (me proc : Nat) :
    (single kind b n fill loc rem).targets me proc =
      block (kind.ends me proc (loc, rem)).2 (n * b.size) := by
  ext l
  simp [Transfer.targets, single, Transfer.bytes]

def Low (t : Transfer) : Prop :=
  ∃ s, t.segs = [s] ∧ s.1 + t.bytes ≤ 2 ^ 20 ∧ s.2 + t.bytes ≤ 2 ^ 20

theorem low_settled {t : Transfer} (h : Low t) (me proc : Nat) :
    t.sources me proc ⊆ putThenGet.settled ∧ t.targets me proc ⊆ putThenGet.settled := by
  obtain ⟨s, hsegs, hloc, hrem⟩ := h
  have hsettled : ∀ (r : Nat) (x : Int), x + t.bytes ≤ 2 ^ 20 →
      block (r, x) t.bytes ⊆ putThenGet.settled := by
    intro r x hx l hl p hscratch
    have hend : l.2 < x + t.bytes := hl.2.2
    have hstart : 2 ^ 20 ≤ l.2 := hscratch.2
    omega
  simp only [Transfer.sources, Transfer.targets, hsegs, List.mem_singleton, exists_eq_left]
  cases t.kind with
  | put | acc => exact ⟨hsettled me s.1 hloc, hsettled proc s.2 hrem⟩
  | get => exact ⟨hsettled proc s.2 hrem, hsettled me s.1 hloc⟩

theorem fromFirst_ok {rs : List Request}
    (hc : ∀ r ∈ rs, r.Correct (pairEnv defaultState 0 0) highArena)
    (hlow : ∀ a ∈ (rs.flatMap (Request.items 0)).flatMap Item.accesses, Low a.transfer)
    (hord : Ordered defaultState (rs.flatMap (Request.items 0))) :
    putThenGet.PhaseOk (fromFirst rs) := by
  have hfirst : ∀ p : Fin 2, p = 0 ∧ fromFirst rs p = rs ∨ fromFirst rs p = [] := by
    intro p
    unfold fromFirst
    split
    · exact .inl ⟨Fin.ext ‹_›, rfl⟩
    · exact .inr rfl
  have haccess : ∀ p, ∀ a ∈ putThenGet.accesses (fromFirst rs) p,
      p.val = 0 ∧ Low a.transfer := by
    intro p a ha
    unfold Job.accesses Job.items at ha
    rcases hfirst p with ⟨rfl, heq⟩ | heq
    · rw [heq] at ha
      exact ⟨rfl, hlow a ha⟩
    · rw [heq] at ha
      cases ha
  refine ⟨fun p r hr => ?_, fun p a ha => low_settled (haccess p a ha).2 _ _, fun p => ?_,
    fun p q hpq a ha b hb => ?_⟩
  · rcases hfirst p with ⟨rfl, heq⟩ | heq
    · exact hc r (heq ▸ hr)
    · rw [heq] at hr
      cases hr
  · unfold Job.items
    rcases hfirst p with ⟨rfl, heq⟩ | heq
    · rw [heq]
      exact hord
    · rw [heq]
      trivial
  · exact absurd (Fin.ext ((haccess p a ha).1.trans (haccess q b hb).1.symm)) hpq

theorem pairEnv_get {src dst : Int} (hpos : 0 < dst) (hlow : dst + 4 ≤ 2 ^ 20) (hsrc : 8192 ≤ src)
    (hend : src + 4 ≤ 8256) :
    (Call.get src dst 4).Valid (pairEnv defaultState 0 0) 1 highArena := by
  have hfound : gmrLookup (pairEnv defaultState 0 0) src 1 =
      .ok (some (pairRegion defaultState 0)) := if_pos ⟨hsrc, by show src < 8192 + 64; omega⟩
  refine ⟨⟨trivial, List.forall_mem_singleton.mpr (single_proper (by decide) (.inr rfl) hpos hlow
    (by omega) (fun _ h => h) fun _ => rfl), List.forall_mem_singleton.mpr
      ⟨_, hfound, List.forall_mem_singleton.mpr ⟨hsrc, ?_, ?_⟩⟩⟩, ?_⟩
  · show src < 8192 + 64
    omega
  · show src + (4 * BaseType.byte.size : Nat) ≤ 8192 + 64
    rw [BaseType.size]
    omega
  · show (4 : Int) ≤ intMax
    decide

theorem putThenGet_ok : putThenGet.Ok where
  me _ := rfl
  allocs p := pairEnv_allocs defaultState p 0
  each := by
    have hlow : ∀ {kind : RmaKind} {loc rem : Int}, loc + 4 ≤ 2 ^ 20 → rem + 4 ≤ 2 ^ 20 →
        Low (single kind .byte 4 id loc rem) := fun hloc hrem => ⟨_, rfl, hloc, hrem⟩
    refine List.forall_mem_cons.mpr ⟨fromFirst_ok ?_ ?_ ?_, List.forall_mem_singleton.mpr
      (fromFirst_ok ?_ ?_ ?_)⟩
    · refine List.forall_mem_cons.mpr ⟨⟨⟨?_, ?_⟩, trivial⟩, List.forall_mem_cons.mpr ⟨trivial,
        List.forall_mem_singleton.mpr (pairEnv_get ?_ ?_ ?_ ?_)⟩⟩
      · exact pairEnv_put defaultState 0 (by decide) (by decide) (by decide) (by decide)
          (by decide) (by decide)
      · show (4 : Int) ≤ intMax
        decide
      all_goals decide
    · refine List.forall_mem_cons.mpr ⟨hlow ?_ ?_, List.forall_mem_singleton.mpr (hlow ?_ ?_)⟩ <;>
        decide
    · -- after the wait the source of the put may be overwritten
      refine ⟨⟨fun _ _ => ⟨⟨fun _ => ?_, fun hno => by cases hno⟩, trivial⟩, fun hno => ?_⟩,
        trivial, trivial⟩
      · refine Access.Clear.of_disjoint ?_ ?_
        · show Disjoint ((putTransfer 64 8192 4).targets 0 1) ((getTransfer 8200 64 4).sources 0 1)
          rw [putTransfer, getTransfer, single_targets, single_sources]
          exact block_disjoint fun _ => .inl (by decide)
        · show Disjoint ((putTransfer 64 8192 4).targets 0 1) ((getTransfer 8200 64 4).targets 0 1)
          rw [putTransfer, getTransfer, single_targets, single_targets]
          exact block_disjoint fun h => by cases h
      · exact absurd (Set.mem_univ _) hno
    · exact List.forall_mem_singleton.mpr (pairEnv_get (by decide) (by decide) (by decide)
        (by decide))
    · exact List.forall_mem_singleton.mpr (hlow (by decide) (by decide))
    · exact ⟨trivial, trivial⟩
  feasible := by
    have hcall : ∀ (p : Fin 2) (acts : List Act) (c : Call), (∀ t ∈ c.transfers, t.bytes ≠ 0) →
        c.Feasible (pairEnv defaultState p 0) 1 acts := fun p acts c =>
      Call.feasible_of_not_usesDatatypes (by rintro (huse | huse) <;> cases huse)
    refine ⟨fun p => ?_, fun p => ?_, trivial⟩
    · dsimp only [fromFirst]
      split
      · exact ⟨hcall p _ _ (by decide), trivial, hcall p _ _ (by decide), trivial⟩
      · trivial
    · dsimp only [fromFirst]
      split
      · exact ⟨hcall p _ _ (by decide), trivial⟩
      · trivial

theorem phases_in_order_putThenGet :
    ∃ m' ws, Relation.ReflTransGen PhaseStep ((fun _ => 7 : Mem), beginPhases putThenGet.steps)
        (m', ws) ∧ (∀ p, ws p = ⟨⟨[], []⟩, []⟩) ∧
      Set.EqOn m' (putThenGet.inOrder fun _ => 7) putThenGet.settled := by
  obtain ⟨-, -, hall⟩ := phases_in_order putThenGet putThenGet_ok fun _ => 7
  obtain ⟨⟨m', ws⟩, hrun, hend⟩ :=
    exists_phases_end ((fun _ => 7 : Mem), beginPhases putThenGet.steps)
  exact ⟨m', ws, hrun, hall m' ws hrun hend⟩

end Phases

end ArmciMpi
