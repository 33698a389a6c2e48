import ArmciMpi.Lib.Transition
import ArmciMpi.Nonblocking.Handle

/-!
# Outstanding request-based operations

One process of the Open MPI 5 build. Every operation with a handle passes
`gmr_request_rma_begin`, which flushes all windows on the region list once
`ARMCII_OMPI_REQUEST_RMA_LIMIT` requests have been issued since the last such
flush. `PARMCI_Rmw` issues a request without the counter and waits for it at
once. Waiting does not lower the counter, so the counter only ever
overestimates what is outstanding on the listed windows.

The trace records the calls that issue or complete requests.
`MPI_Win_unlock_all` in `gmr_destroy` completes what was issued on a window that
leaves the list, which no later flush reaches any more. Flushes of a single
target complete requests too; they are not recorded, and nothing here needs
them.
-/

namespace ArmciMpi.Nonblocking

open Lib

/-- `ARMCII_OMPI_REQUEST_RMA_LIMIT`. -/
def requestRmaLimit : Nat := 128

inductive RequestCall
  | rput
  | rget
  | raccumulate
  | rgetAccumulate
  deriving DecidableEq

structure Request where
  id : Nat
  win : Nat
  call : RequestCall
  deriving DecidableEq

inductive Event
  | issue (r : Request)
  /-- `MPI_Wait`, `MPI_Waitall` or a test that reports completion. -/
  | wait (rs : List Request)
  | flushLocalAll (win : Nat)
  | unlockAll (win : Nat)
  deriving DecidableEq

def Event.issues : Event → List Request
  | .issue r => [r]
  | _ => []

/-- The request is waited for, or a `flush_local_all` of its window covers it. -/
def Event.covers (e : Event) (r : Request) : Bool :=
  match e with
  | .wait rs => r ∈ rs
  | .flushLocalAll win => r.win = win
  | _ => false

/-- As `covers`, or the epoch of its window ends. -/
def Event.completes (e : Event) (r : Request) : Bool :=
  match e with
  | .unlockAll win => r.win = win
  | e => e.covers r

def outstanding (done : Event → Request → Bool) (trace : List Event) : List Request :=
  trace.foldl (fun rs e => rs.filter (fun r => !done e r) ++ e.issues) []

-- ------------------------------
-- The process
-- ------------------------------

/-- The windows on `gmr_list`, the counter `ompi_request_rma_issued`, the handles
of the caller, and what MPI was asked so far. -/
structure State where
  gmrList : List Nat
  rmaIssued : Nat
  handles : Nat → Handle Request
  wins : Nat
  requests : Nat
  trace : List Event

inductive RmaOp
  | put
  | get
  | acc
  | getAcc
  deriving DecidableEq

def RmaOp.requestCall (rmaAtomicity : Bool) : RmaOp → RequestCall
  | .put => if rmaAtomicity then .raccumulate else .rput
  | .get => if rmaAtomicity then .rgetAccumulate else .rget
  | .acc => .raccumulate
  | .getAcc => .rgetAccumulate

inductive Op
  | create
  | destroy (win : Nat)
  | rma (op : RmaOp) (win : Nat) (handle : Option Nat)
  | rmw (win : Nat)
  | initHandle (handle : Nat)
  | wait (handle : Nat)
  | test (handle : Nat) (flag : Bool)

namespace State

def record (s : State) (evs : List Event) : State := { s with trace := s.trace ++ evs }

def setHandle (s : State) (h : Nat) (v : Handle Request) : State :=
  { s with handles := Function.update s.handles h v }

def gmrRequestRmaBegin (s : State) : State :=
  if requestRmaLimit ≤ s.rmaIssued then
    { s.record (s.gmrList.map .flushLocalAll) with rmaIssued := 0 }
  else s

def issue (s : State) (win : Nat) (call : RequestCall) : State :=
  { s.record [.issue ⟨s.requests, win, call⟩] with requests := s.requests + 1 }

/-- The counter is an `unsigned int`. -/
def gmrRequestRmaEnd (s : State) : State := { s with rmaIssued := (s.rmaIssued + 1) % 2 ^ 32 }

def requestRma (s : State) (win : Nat) (call : RequestCall) (h : Nat) : State :=
  let r : Request := ⟨s.requests, win, call⟩
  let s := ((s.gmrRequestRmaBegin).issue win call).gmrRequestRmaEnd
  s.setHandle h (gmrHandleAddRequest (s.handles h) r).handle

/-- `gmr_fetch_and_op`. -/
def gmrFetchAndOp (s : State) (useRequestAtomics : Bool) (win : Nat) : State :=
  if useRequestAtomics then
    (s.issue win .rgetAccumulate).record [.wait [⟨s.requests, win, .rgetAccumulate⟩]]
  else s

def finish (s : State) (h : Nat) (o : Outcome Request) : State :=
  (s.record [.wait o.completed]).setHandle h o.handle

end State

structure Settings where
  rmaAtomicity : Bool
  useRequestAtomics : Bool

/-- An operation finds its region on the list, and so does `gmr_destroy`. -/
def Settings.step (cfg : Settings) (s : State) : Op → Option State
  | .create => some { s with gmrList := s.gmrList ++ [s.wins], wins := s.wins + 1 }
  | .destroy win =>
    if win ∈ s.gmrList then
      some { s.record [.unlockAll win] with gmrList := s.gmrList.erase win }
    else none
  | .rma op win handle =>
    if win ∈ s.gmrList then
      match handle with
      | some h => some (s.requestRma win (op.requestCall cfg.rmaAtomicity) h)
      | none => some s
    else none
  | .rmw win =>
    if win ∈ s.gmrList then some (s.gmrFetchAndOp cfg.useRequestAtomics win) else none
  | .initHandle h => some (s.setHandle h Nonblocking.initHandle)
  | .wait h => some (s.finish h (parmciWait (s.handles h)))
  | .test h flag => some (s.finish h (parmciTest (s.handles h) flag).1)

def State.start : State := ⟨[], 0, fun _ => initHandle, 0, 0, []⟩

def Settings.system (cfg : Settings) : System State Op := ⟨(· = .start), cfg.step⟩

-- ------------------------------
-- Traces
-- ------------------------------

theorem outstanding_snoc (done : Event → Request → Bool) (trace : List Event) (e : Event) :
    outstanding done (trace ++ [e]) =
      (outstanding done trace).filter (fun r => !done e r) ++ e.issues := by
  simp [outstanding]

theorem outstanding_append_le (done : Event → Request → Bool) (trace evs : List Event) :
    (outstanding done (trace ++ evs)).length ≤
      (outstanding done trace).length + (evs.flatMap Event.issues).length := by
  induction evs using List.reverseRecOn with
  | nil => simp
  | append_singleton evs e ih =>
    rw [← List.append_assoc, outstanding_snoc]
    have hfilter := List.length_filter_le (fun r => !done e r) (outstanding done (trace ++ evs))
    simp only [List.flatMap_append, List.length_append, List.flatMap_singleton]
    omega

theorem mem_outstanding_append {done : Event → Request → Bool} {trace evs : List Event}
    (hevs : ∀ e ∈ evs, e.issues = []) {r : Request} :
    r ∈ outstanding done (trace ++ evs) ↔
      r ∈ outstanding done trace ∧ ∀ e ∈ evs, done e r = false := by
  induction evs using List.reverseRecOn with
  | nil => simp
  | append_singleton evs e ih =>
    have hevs' : ∀ e ∈ evs, e.issues = [] := fun e he => hevs e (List.mem_append_left _ he)
    rw [← List.append_assoc, outstanding_snoc, hevs e (by simp), List.append_nil,
      List.mem_filter, ih hevs']
    simp [or_imp, forall_and, and_assoc]

-- ------------------------------
-- The counter bounds what is outstanding
-- ------------------------------

/-- What the counter knows: it has not passed the limit, it counts everything
outstanding, and all of that is on listed windows. -/
structure Inv (s : State) : Prop where
  limit : s.rmaIssued ≤ requestRmaLimit
  counted : (outstanding Event.completes s.trace).length ≤ s.rmaIssued
  listed : ∀ r ∈ outstanding Event.completes s.trace, r.win ∈ s.gmrList

/-- The trace may not exceed the limit by more than one at any point. -/
def Bounded (trace : List Event) : Prop :=
  ∀ evs, evs <+: trace → (outstanding Event.completes evs).length ≤ requestRmaLimit + 1

theorem Inv.start : Inv .start := ⟨Nat.zero_le _, Nat.le_refl _, by simp [State.start, outstanding]⟩

theorem Inv.record {s : State} (h : Inv s) {e : Event} (he : e.issues = []) :
    Inv (s.record [e]) := by
  have hevs : ∀ e' ∈ [e], e'.issues = [] := by simpa using he
  refine ⟨h.limit, ?_, fun r hr => h.listed r ((mem_outstanding_append hevs).mp hr).1⟩
  have hle := outstanding_append_le Event.completes s.trace [e]
  simp only [List.flatMap_singleton, he, List.length_nil] at hle
  have := h.counted
  simp only [State.record]
  omega

/-- The flush of `gmr_request_rma_begin` completes everything outstanding. -/
theorem Inv.begin {s : State} (h : Inv s) :
    Inv s.gmrRequestRmaBegin ∧ s.gmrRequestRmaBegin.rmaIssued < requestRmaLimit := by
  unfold State.gmrRequestRmaBegin
  split
  · rename_i hfull
    have hevs : ∀ e ∈ s.gmrList.map Event.flushLocalAll, e.issues = [] := by simp [Event.issues]
    have hnil : outstanding Event.completes (s.trace ++ s.gmrList.map Event.flushLocalAll) = [] := by
      refine List.eq_nil_iff_forall_not_mem.mpr fun r hr => ?_
      obtain ⟨hmem, hnot⟩ := (mem_outstanding_append hevs).mp hr
      have := hnot _ (List.mem_map_of_mem (h.listed r hmem))
      simp [Event.completes, Event.covers] at this
    refine ⟨⟨Nat.zero_le _, ?_, ?_⟩, Nat.zero_lt_succ 127⟩
    · simp [State.record, hnil]
    · simp [State.record, hnil]
  · rename_i hroom
    exact ⟨h, by omega⟩

/-- One request between `begin` and `end` is counted. -/
theorem Inv.issue {s : State} (h : Inv s) (hroom : s.rmaIssued < requestRmaLimit)
    (hwin : win ∈ s.gmrList) : Inv (s.issue win call).gmrRequestRmaEnd := by
  have hmod : (s.rmaIssued + 1) % 2 ^ 32 = s.rmaIssued + 1 := by
    unfold requestRmaLimit at hroom
    omega
  have hle := outstanding_append_le Event.completes s.trace
    [.issue ⟨s.requests, win, call⟩]
  have hcounted := h.counted
  simp only [List.flatMap_singleton, Event.issues, List.length_singleton] at hle
  refine ⟨?_, ?_, fun r hr => ?_⟩
  · simp only [State.issue, State.gmrRequestRmaEnd, State.record, hmod]
    omega
  · simp only [State.issue, State.gmrRequestRmaEnd, State.record, hmod]
    omega
  · simp only [State.issue, State.gmrRequestRmaEnd, State.record, outstanding_snoc,
      Event.issues, List.mem_append, List.mem_filter, List.mem_singleton] at hr ⊢
    rcases hr with ⟨hr, -⟩ | rfl
    · exact h.listed r hr
    · exact hwin

theorem Inv.fetchAndOp {s : State} (h : Inv s) (useRequestAtomics : Bool) (win : Nat) :
    Inv (s.gmrFetchAndOp useRequestAtomics win) := by
  cases useRequestAtomics with
  | false => exact h
  | true =>
    let r : Request := ⟨s.requests, win, .rgetAccumulate⟩
    have hout : outstanding Event.completes (s.trace ++ [.issue r] ++ [.wait [r]]) =
        (outstanding Event.completes s.trace).filter fun r' => !Event.completes (.wait [r]) r' := by
      simp only [outstanding_snoc, Event.issues, List.append_nil, List.filter_append]
      simp [Event.completes, Event.covers]
    refine ⟨h.limit, ?_, fun r' hr' => ?_⟩
    · have hle := List.length_filter_le (fun r' => !Event.completes (.wait [r]) r')
        (outstanding Event.completes s.trace)
      have hcounted := h.counted
      simp only [State.gmrFetchAndOp, State.issue, State.record, if_true]
      rw [hout]
      omega
    · simp only [State.gmrFetchAndOp, State.issue, State.record, if_true] at hr' ⊢
      rw [hout] at hr'
      exact h.listed r' (List.mem_filter.mp hr').1

theorem Inv.setHandle {s : State} (h : Inv s) (i : Nat) (v : Handle Request) :
    Inv (s.setHandle i v) := ⟨h.limit, h.counted, h.listed⟩

/-- What is outstanding on a destroyed window is complete, so the rest is still
on listed ones. -/
theorem Inv.destroy {s : State} (h : Inv s) (win : Nat) :
    Inv { s.record [.unlockAll win] with gmrList := s.gmrList.erase win } := by
  have hrec : Inv (s.record [.unlockAll win]) := h.record rfl
  refine ⟨hrec.limit, hrec.counted, fun r hr => ?_⟩
  have hne : r.win ≠ win := by
    simp only [State.record, outstanding_snoc, Event.issues, List.append_nil, List.mem_filter,
      Event.completes] at hr
    simpa using hr.2
  exact (List.mem_erase_of_ne hne).mpr (hrec.listed r hr)

theorem Inv.step {cfg : Settings} {s t : State} {op : Op} (h : Inv s)
    (hn : cfg.step s op = some t) : Inv t := by
  cases op with
  | create =>
    cases hn
    exact ⟨h.limit, h.counted, fun r hr => List.mem_append_left _ (h.listed r hr)⟩
  | destroy win =>
    simp only [Settings.step, Option.ite_none_right_eq_some, Option.some.injEq] at hn
    obtain ⟨-, rfl⟩ := hn
    exact h.destroy win
  | rma op win handle =>
    simp only [Settings.step, Option.ite_none_right_eq_some] at hn
    obtain ⟨hwin, hn⟩ := hn
    cases handle with
    | none => cases hn; exact h
    | some i =>
      cases hn
      obtain ⟨hb, hroom⟩ := h.begin
      have hlist : s.gmrRequestRmaBegin.gmrList = s.gmrList := by
        unfold State.gmrRequestRmaBegin
        split <;> rfl
      exact (hb.issue hroom (hlist ▸ hwin)).setHandle _ _
  | rmw win =>
    simp only [Settings.step, Option.ite_none_right_eq_some, Option.some.injEq] at hn
    obtain ⟨-, rfl⟩ := hn
    exact h.fetchAndOp _ _
  | initHandle i => cases hn; exact h.setHandle _ _
  | wait i => cases hn; exact (h.record rfl).setHandle _ _
  | test i flag => cases hn; exact (h.record rfl).setHandle _ _

theorem step_trace {cfg : Settings} {s t : State} {op : Op} (hn : cfg.step s op = some t) :
    ∃ evs, t.trace = s.trace ++ evs ∧ (evs.flatMap Event.issues).length ≤ 1 := by
  cases op with
  | create => cases hn; exact ⟨[], by simp, by simp⟩
  | destroy win =>
    simp only [Settings.step, Option.ite_none_right_eq_some, Option.some.injEq] at hn
    obtain ⟨-, rfl⟩ := hn
    exact ⟨[.unlockAll win], rfl, Nat.zero_le 1⟩
  | rma op win handle =>
    simp only [Settings.step, Option.ite_none_right_eq_some] at hn
    obtain ⟨-, hn⟩ := hn
    cases handle with
    | none => cases hn; exact ⟨[], by simp, by simp⟩
    | some i =>
      cases hn
      simp only [State.requestRma, State.gmrRequestRmaBegin]
      split
      · refine ⟨s.gmrList.map .flushLocalAll ++
          [.issue ⟨s.requests, win, op.requestCall cfg.rmaAtomicity⟩], ?_, ?_⟩
        · simp [State.setHandle, State.gmrRequestRmaEnd, State.issue, State.record]
        · simp [Event.issues, List.flatMap_map]
      · exact ⟨_, rfl, Nat.le_refl 1⟩
  | rmw win =>
    simp only [Settings.step, Option.ite_none_right_eq_some, Option.some.injEq] at hn
    obtain ⟨-, rfl⟩ := hn
    unfold State.gmrFetchAndOp
    split
    · exact ⟨_, List.append_assoc s.trace _ _, Nat.le_refl 1⟩
    · exact ⟨[], by simp, by simp⟩
  | initHandle i => cases hn; exact ⟨[], by simp [State.setHandle], by simp⟩
  | wait i => cases hn; exact ⟨_, rfl, Nat.zero_le 1⟩
  | test i flag => cases hn; exact ⟨_, rfl, Nat.zero_le 1⟩

theorem Bounded.step {cfg : Settings} {s t : State} {op : Op} (hb : Bounded s.trace) (hi : Inv s)
    (hn : cfg.step s op = some t) : Bounded t.trace := by
  obtain ⟨evs, htrace, hone⟩ := step_trace hn
  intro pre hpre
  rw [htrace] at hpre
  rcases List.prefix_or_prefix_of_prefix hpre (List.prefix_append s.trace evs) with hold | ⟨evs', rfl⟩
  · exact hb pre hold
  · have hevs' := (List.prefix_append_right_inj s.trace).mp hpre
    have hle := outstanding_append_le Event.completes s.trace evs'
    have hsub : (evs'.flatMap Event.issues).length ≤ (evs.flatMap Event.issues).length := by
      obtain ⟨rest, rfl⟩ := hevs'
      simp
    have := hi.counted
    have := hi.limit
    omega

theorem Settings.reachable_inv {cfg : Settings} {s : State} (h : cfg.system.Reachable s) :
    Inv s ∧ Bounded s.trace := by
  refine h.invariant (I := fun s => Inv s ∧ Bounded s.trace) ?_ ?_
  · rintro s rfl
    refine ⟨.start, fun evs hevs => ?_⟩
    simp [List.prefix_nil.mp hevs, outstanding]
  · rintro s op t - ⟨hi, hb⟩ hn
    exact ⟨hi.step hn, hb.step hi hn⟩

/-- At every point of every run at most one request beyond the limit is
outstanding. -/
theorem outstanding_le (cfg : Settings) {s : State} (h : cfg.system.Reachable s)
    {evs : List Event} (hp : evs <+: s.trace) :
    (outstanding Event.completes evs).length ≤ requestRmaLimit + 1 ∧
      (outstanding Event.completes evs).length < 255 := by
  have hle := (Settings.reachable_inv h).2 evs hp
  refine ⟨hle, ?_⟩
  unfold requestRmaLimit at hle
  omega

def fillOps : List Op :=
  .create :: List.replicate requestRmaLimit (.rma .put 0 (some 0))

/-- The state after `k` of these puts: nothing was flushed yet. -/
structure Filled (k : Nat) (s : State) (rs : List Request) : Prop where
  listed : s.gmrList = [0]
  wins : s.wins = 1
  issued : s.rmaIssued = k
  trace : s.trace = rs.map .issue
  length : rs.length = k
  win : ∀ r ∈ rs, r.win = 0

theorem Filled.step (cfg : Settings) {k : Nat} {s : State} {rs : List Request} (h : Filled k s rs)
    (hroom : k < requestRmaLimit) :
    ∃ t rs', cfg.step s (.rma .put 0 (some 0)) = some t ∧ Filled (k + 1) t rs' := by
  have hbegin : s.gmrRequestRmaBegin = s := if_neg (by rw [h.issued]; omega)
  have hmod : (k + 1) % 2 ^ 32 = k + 1 := by
    unfold requestRmaLimit at hroom
    omega
  refine ⟨_, rs ++ [⟨s.requests, 0, RmaOp.put.requestCall cfg.rmaAtomicity⟩],
    if_pos (by simp [h.listed]), ?_⟩
  rw [State.requestRma, hbegin]
  refine ⟨h.listed, h.wins, ?_, ?_, by simp [h.length], ?_⟩
  · simp only [State.setHandle, State.gmrRequestRmaEnd, State.issue, State.record, h.issued, hmod]
  · simp [State.setHandle, State.gmrRequestRmaEnd, State.issue, State.record, h.trace]
  · simpa [or_imp, forall_and] using h.win

theorem run_fill (cfg : Settings) :
    ∃ s rs, cfg.system.run .start fillOps = some s ∧ Filled requestRmaLimit s rs := by
  have hfill : ∀ k ≤ requestRmaLimit, ∃ s rs, cfg.system.run .start
      (.create :: List.replicate k (.rma .put 0 (some 0))) = some s ∧ Filled k s rs := by
    intro k
    induction k with
    | zero => exact fun _ => ⟨_, [], rfl, ⟨rfl, rfl, rfl, rfl, rfl, by simp⟩⟩
    | succ k ih =>
      intro hk
      obtain ⟨s, rs, hrun, hs⟩ := ih (by omega)
      obtain ⟨t, rs', hstep, ht⟩ := hs.step cfg hk
      refine ⟨t, rs', ?_, ht⟩
      rw [List.replicate_succ', ← List.cons_append, System.run_append, hrun]
      simpa [System.run, Settings.system] using hstep
  exact hfill requestRmaLimit (Nat.le_refl _)

theorem outstanding_issues {done : Event → Request → Bool}
    (hdone : ∀ r r', done (.issue r) r' = false) (rs : List Request) :
    outstanding done (rs.map .issue) = rs := by
  induction rs using List.reverseRecOn with
  | nil => rfl
  | append_singleton rs r ih => simp [outstanding_snoc, ih, hdone, Event.issues]

/-- The bound is reached while `PARMCI_Rmw` waits for its own request. -/
theorem outstanding_le_reached :
    ∃ s evs, (Settings.system ⟨false, true⟩).Reachable s ∧ evs <+: s.trace ∧
      (outstanding Event.completes evs).length = requestRmaLimit + 1 ∧
      (outstanding Event.completes evs).length < 255 := by
  obtain ⟨s, rs, hrun, hs⟩ := run_fill ⟨false, true⟩
  have hfill : (Settings.system ⟨false, true⟩).Reachable s := (System.Reachable.init rfl).run hrun
  have hstep : (Settings.system ⟨false, true⟩).next s (.rmw 0) = some (s.gmrFetchAndOp true 0) :=
    if_pos (by simp [hs.listed])
  have hreach : (Settings.system ⟨false, true⟩).Reachable (s.gmrFetchAndOp true 0) :=
    .step hfill hstep
  have hpre : s.trace ++ [.issue ⟨s.requests, 0, .rgetAccumulate⟩] <+:
      (s.gmrFetchAndOp true 0).trace := List.prefix_append _ _
  refine ⟨_, _, hreach, hpre, ?_, (outstanding_le _ hreach hpre).2⟩
  rw [outstanding_snoc, hs.trace, outstanding_issues fun _ _ => rfl]
  simp [Event.completes, Event.covers, Event.issues, hs.length]

/-- Requests on a destroyed window are never covered by a later flush of the
list, only by the end of the window's epoch. -/
theorem covered_exceeds_limit :
    ∃ s, (Settings.system ⟨false, false⟩).Reachable s ∧
      requestRmaLimit + 1 < (outstanding Event.covers s.trace).length := by
  obtain ⟨s, rs, hrun, hs⟩ := run_fill ⟨false, false⟩
  have hfill : (Settings.system ⟨false, false⟩).Reachable s := (System.Reachable.init rfl).run hrun
  obtain ⟨t, hafter, htrace⟩ : ∃ t, (Settings.system ⟨false, false⟩).run s
      [.destroy 0, .create, .rma .put 1 (some 1), .rma .put 1 (some 1)] = some t ∧
      t.trace = rs.map .issue ++ [.unlockAll 0] ++ [.flushLocalAll 1] ++
        [.issue ⟨s.requests, 1, .rput⟩] ++ [.issue ⟨s.requests + 1, 1, .rput⟩] := by
    simp [System.run, Settings.system, Settings.step, State.record, State.requestRma,
      State.gmrRequestRmaBegin, State.gmrRequestRmaEnd, State.issue, State.setHandle, hs.listed,
      hs.wins, hs.issued, hs.trace, RmaOp.requestCall, requestRmaLimit]
  -- the flush is on the new window, and the requests are on the old one
  have hkept : rs.filter (fun r => !decide (r.win = 1)) = rs :=
    List.filter_eq_self.mpr fun r hr => by simp [hs.win r hr]
  refine ⟨t, hfill.run hafter, ?_⟩
  have hissued : outstanding Event.covers (rs.map .issue) = rs := outstanding_issues (fun _ _ => rfl) rs
  rw [htrace]
  simp only [outstanding_snoc, hissued]
  simp [Event.covers, Event.issues, hkept, hs.length, requestRmaLimit]

end ArmciMpi.Nonblocking
