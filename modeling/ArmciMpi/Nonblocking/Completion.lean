import ArmciMpi.Lib.Transition
import ArmciMpi.Nonblocking.Handle
import ArmciMpi.Runtime.Fence
import ArmciMpi.Transfer.Release

/-!
# Testing for completion

One handle of one process, with the operations issued on it. An operation adds
a request for every request-based call it makes; a copy within the process and
the value puts make none. MPI may complete a request at any time, and
`MPI_Test` and `MPI_Testall` report whether all requests they are given are
complete.

A test of a handle without requests returns 1, although there is nothing left
to complete (`test_right_iff`). Without `USE_RMA_REQUESTS` the call is
`PARMCI_Wait` and returns 0; that build is not modelled here.
-/

namespace ArmciMpi

open Lib Script

/-- The value puts are blocking puts and leave the handle alone; `src` is the address of
the argument. -/
def parmciNbPutValue (size : Nat) (env : Env) (src dst : Int) (proc : Nat) (_hdl : Option Nat) :
    Script Act Unit :=
  parmciPut env src dst size proc

def parmciNbPutValueInt := parmciNbPutValue BaseType.int.size

def parmciNbPutValueLong := parmciNbPutValue BaseType.long.size

def parmciNbPutValueFloat := parmciNbPutValue BaseType.float.size

def parmciNbPutValueDouble := parmciNbPutValue BaseType.double.size

namespace Nonblocking.Completion

inductive Operation
  | transfer (call : NbCall)
  | putValueInt (src dst : Int)
  | putValueLong (src dst : Int)
  | putValueFloat (src dst : Int)
  | putValueDouble (src dst : Int)

def Operation.run (env : Env) (proc : Nat) (hdl : Option Nat) : Operation → Script Act Unit
  | transfer call => call.run env proc hdl
  | putValueInt src dst => parmciNbPutValueInt env src dst proc hdl
  | putValueLong src dst => parmciNbPutValueLong env src dst proc hdl
  | putValueFloat src dst => parmciNbPutValueFloat env src dst proc hdl
  | putValueDouble src dst => parmciNbPutValueDouble env src dst proc hdl

def requestsOf (hdl : Nat) (acts : List Act) : Nat :=
  ((issued acts).filter fun op => op.request = some hdl).length

/-- `ops` are the requests of each operation issued on the handle, `done` those MPI has
completed. -/
structure State where
  handle : Handle Nat
  requests : Nat
  ops : List (List Nat)
  done : List Nat

def State.start : State := ⟨initHandle, 0, [], []⟩

def addRequests (h : Handle Nat) (rs : List Nat) : Handle Nat :=
  rs.foldl (fun h r => (gmrHandleAddRequest h r).handle) h

/-- An operation makes `n` requests. -/
def State.issue (s : State) (n : Nat) : State :=
  { s with
    handle := addRequests s.handle (List.range' s.requests n)
    requests := s.requests + n
    ops := s.ops ++ [List.range' s.requests n] }

def State.wait (s : State) : State :=
  let o := parmciWait s.handle
  { s with handle := o.handle, done := s.done ++ o.completed }

/-- What `MPI_Test` or `MPI_Testall` reports. -/
def State.flag (s : State) : Bool := s.handle.recorded.all (· ∈ s.done)

/-- `PARMCI_Test` and what it returns. -/
def State.test (s : State) : State × Int :=
  let (o, ret) := parmciTest s.handle s.flag
  ({ s with handle := o.handle }, ret)

inductive Event
  /-- The call as it runs after the actions of the history. -/
  | issue (env : Env) (proc : Nat) (op : Operation) (history : List Act)
  /-- MPI completes a request. -/
  | complete (r : Nat)
  | wait
  | test

def next (hdl : Nat) (s : State) : Event → Option State
  | .issue env proc op history =>
    match op.run env proc (some hdl) history with
    | (.ok _, acts) => if env.cfg.useRmaRequests then some (s.issue (requestsOf hdl acts)) else none
    | (.error _, _) => none
  | .complete r => if r < s.requests then some { s with done := r :: s.done } else none
  | .wait => some s.wait
  | .test => some s.test.1

def system (hdl : Nat) : System State Event := ⟨(· = .start), next hdl⟩

-- ------------------------------
-- The handle holds what is not complete
-- ------------------------------

open Handle (ofPending)

variable {hdl : Nat} {s t : State}

/-- The handle holds requests of the operations, and a request that it does not hold is
complete. -/
def Inv (s : State) : Prop :=
  ∃ pending, s.handle = ofPending pending ∧
    (∀ rs ∈ s.ops, ∀ r ∈ rs, r ∈ s.done ∨ r ∈ pending) ∧
    ∀ r ∈ pending, ∃ rs ∈ s.ops, r ∈ rs

theorem addRequests_ok (pending rs : List Nat) :
    addRequests (ofPending pending) rs = ofPending (pending ++ rs) := by
  induction rs generalizing pending with
  | nil => simp [addRequests]
  | cons r rs ih =>
    rw [addRequests, List.foldl_cons, gmrHandleAddRequest_ok]
    have := ih (pending ++ [r])
    rwa [addRequests, List.append_assoc] at this

theorem Inv.issue (h : Inv s) (n : Nat) : Inv (s.issue n) := by
  obtain ⟨pending, hhandle, hall, hof⟩ := h
  refine ⟨pending ++ List.range' s.requests n, ?_, fun rs hrs r hr => ?_, fun r hr => ?_⟩
  · simp only [State.issue, hhandle, addRequests_ok]
  · rcases List.mem_append.mp hrs with hrs | hrs
    · exact (hall rs hrs r hr).imp id (List.mem_append_left _)
    · rw [List.mem_singleton.mp hrs] at hr
      exact .inr (List.mem_append_right _ hr)
  · rcases List.mem_append.mp hr with hr | hr
    · obtain ⟨rs, hrs, hr⟩ := hof r hr
      exact ⟨rs, List.mem_append_left _ hrs, hr⟩
    · exact ⟨_, List.mem_append_right _ (List.mem_singleton.mpr rfl), hr⟩

theorem Inv.wait (h : Inv s) : Inv s.wait := by
  obtain ⟨pending, hhandle, hall, hof⟩ := h
  by_cases hp : pending = []
  · subst hp
    exact ⟨[], by simp [State.wait, hhandle, parmciWait, ofPending],
      fun rs hrs r hr => (hall rs hrs r hr).imp (List.mem_append_left _) id, nofun⟩
  · refine ⟨[], by simp [State.wait, hhandle, parmciWait_ok hp], fun rs hrs r hr => .inl ?_, nofun⟩
    simp only [State.wait, hhandle, parmciWait_ok hp]
    rcases hall rs hrs r hr with hdone | hpending
    · exact List.mem_append_left _ hdone
    · exact List.mem_append_right _ hpending

theorem Inv.test (h : Inv s) : Inv s.test.1 := by
  obtain ⟨pending, hhandle, hall, hof⟩ := h
  by_cases hp : pending = []
  · subst hp
    exact ⟨[], by simp [State.test, hhandle, parmciTest, ofPending], hall, nofun⟩
  · have hflag : s.flag = pending.all (· ∈ s.done) := by simp [State.flag, hhandle]
    cases hf : s.flag with
    | false =>
      exact ⟨pending, by simp [State.test, hhandle, parmciTest_ok hp, hf], hall, hof⟩
    | true =>
      refine ⟨[], by simp [State.test, hhandle, parmciTest_ok hp, hf], fun rs hrs r hr => ?_, nofun⟩
      -- a test that reports completion drops complete requests only
      rw [hf, eq_comm, List.all_eq_true] at hflag
      rcases hall rs hrs r hr with hdone | hpending
      · exact .inl hdone
      · exact .inl (of_decide_eq_true (hflag r hpending))

theorem Inv.next (h : Inv s) (hn : Completion.next hdl s e = some t) : Inv t := by
  cases e with
  | issue env proc op history =>
    simp only [Completion.next] at hn
    split at hn
    · obtain ⟨-, ⟨⟩⟩ := Option.ite_none_right_eq_some.mp hn
      exact h.issue _
    · cases hn
  | complete r =>
    obtain ⟨-, ⟨⟩⟩ := Option.ite_none_right_eq_some.mp hn
    obtain ⟨pending, hhandle, hall, hof⟩ := h
    exact ⟨pending, hhandle, fun rs hrs r' hr' =>
      (hall rs hrs r' hr').imp (List.mem_cons_of_mem r) id, hof⟩
  | wait => cases hn; exact h.wait
  | test => cases hn; exact h.test

theorem inv_of_reachable (h : (system hdl).Reachable s) : Inv s :=
  h.invariant (by rintro s rfl; exact ⟨[], rfl, nofun, nofun⟩) fun _ _ _ _ hi hn => hi.next hn

-- ------------------------------
-- What a test returns
-- ------------------------------

def AllComplete (s : State) : Prop := ∀ rs ∈ s.ops, ∀ r ∈ rs, r ∈ s.done

/-- The state after `n` tests in a row. -/
def State.tests (s : State) : Nat → State
  | 0 => s
  | n + 1 => (s.tests n).test.1

/-- A test returns 0 if all operations are complete, and something else only if one is
not, and the loop that tests until then ends once all are complete. -/
structure Right (s : State) : Prop where
  zero : AllComplete s → s.test.2 = 0
  nonzero : s.test.2 ≠ 0 → ∃ rs ∈ s.ops, ∃ r ∈ rs, r ∉ s.done
  ends : AllComplete s → ∃ n, (s.tests n).test.2 = 0

theorem test_of_ne_nil {pending : List Nat} (hhandle : s.handle = ofPending pending)
    (hp : pending ≠ []) : s.test.2 = 0 ↔ ∀ r ∈ pending, r ∈ s.done := by
  have hflag : s.flag = true ↔ ∀ r ∈ pending, r ∈ s.done := by simp [State.flag, hhandle]
  rw [← hflag]
  cases hf : s.flag <;> simp [State.test, hhandle, parmciTest_ok hp, hf]

theorem test_of_nil (hhandle : s.handle = ofPending []) : s.test = (s, 1) := by
  obtain ⟨handle, requests, ops, done⟩ := s
  subst hhandle
  simp [State.test, parmciTest, ofPending]

theorem tests_of_nil (hhandle : s.handle = ofPending []) (n : Nat) : s.tests n = s := by
  induction n with
  | zero => rfl
  | succ n ih => rw [State.tests, ih, test_of_nil hhandle]

/-- After any history, a test is right exactly if the handle has a request. -/
theorem test_right_iff (h : (system hdl).Reachable s) : Right s ↔ s.handle.batchSize ≠ 0 := by
  obtain ⟨pending, hhandle, hall, hof⟩ := inv_of_reachable h
  rw [hhandle, ofPending_size]
  by_cases hp : pending = []
  · subst hp
    have hcomplete : AllComplete s := fun rs hrs r hr => (hall rs hrs r hr).resolve_right nofun
    refine ⟨fun hright => ?_, fun hne => absurd rfl hne⟩
    have hret := hright.zero hcomplete
    rw [test_of_nil hhandle] at hret
    cases hret
  · have htest := test_of_ne_nil hhandle hp
    have hcomplete : AllComplete s → s.test.2 = 0 := fun hc =>
      htest.mpr fun r hr => by
        obtain ⟨rs, hrs, hr⟩ := hof r hr
        exact hc rs hrs r hr
    refine ⟨fun _ => by simpa using hp, fun _ => ⟨hcomplete, fun hne => ?_, fun hc => ⟨0, hcomplete hc⟩⟩⟩
    rw [Ne, htest] at hne
    push Not at hne
    obtain ⟨r, hr, hundone⟩ := hne
    obtain ⟨rs, hrs, hr⟩ := hof r hr
    exact ⟨rs, hrs, r, hr, hundone⟩

theorem test_right_iff_acc :
    ∃ s, (system 0).Reachable s ∧ s.handle.batchSize = 1 ∧ Right s := by
  have hrun : (next 0 .start (.issue selfRegionEnv 0 (.transfer (.acc (.int 1) 16 4096 4)) [])).map
      (·.handle.batchSize) = some 1 := by decide +kernel
  obtain ⟨s, hs, hsize⟩ := Option.map_eq_some_iff.mp hrun
  have hn : (system 0).next .start
      (.issue selfRegionEnv 0 (.transfer (.acc (.int 1) 16 4096 4)) []) = some s := hs
  have hreach : (system 0).Reachable s := .step (.init rfl) hn
  exact ⟨s, hreach, hsize, (test_right_iff hreach).mpr (by rw [hsize]; decide)⟩

/-- A put to the caller itself is a copy: every test returns 1. -/
theorem test_local_put :
    ∃ s, (system 0).Reachable s ∧ s.ops = [[]] ∧ AllComplete s ∧ ∀ n, (s.tests n).test.2 = 1 := by
  have hrun : (next 0 .start (.issue selfRegionEnv 0 (.transfer (.put 16 4096 8)) [])).map
      (fun s => (s.ops, s.handle.batchSize)) = some ([[]], 0) := by decide +kernel
  obtain ⟨s, hs, hsize⟩ := Option.map_eq_some_iff.mp hrun
  have hn : (system 0).next .start
      (.issue selfRegionEnv 0 (.transfer (.put 16 4096 8)) []) = some s := hs
  have hreach : (system 0).Reachable s := .step (.init rfl) hn
  obtain ⟨hops, hsize⟩ := Prod.mk.inj hsize
  obtain ⟨pending, hhandle, -⟩ := inv_of_reachable hreach
  have hnil : s.handle = ofPending [] := by
    rw [hhandle, ofPending_size] at hsize
    have hp : pending = [] := List.length_eq_zero_iff.mp (by omega)
    rw [hhandle, hp]
  refine ⟨s, hreach, hops, ?_, fun n => ?_⟩
  · intro rs hrs r hr
    rw [hops, List.mem_singleton] at hrs
    rw [hrs] at hr
    cases hr
  · rw [tests_of_nil hnil, test_of_nil hnil]

end Nonblocking.Completion

end ArmciMpi
