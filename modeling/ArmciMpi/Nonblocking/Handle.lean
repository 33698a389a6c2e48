import Mathlib.Data.List.Infix
import Mathlib.Data.Multiset.AddSub

/-!
# Nonblocking handles

The handle of a nonblocking operation when `USE_RMA_REQUESTS` is set: no
request, one request in `single_request`, or an array of two and more. An
operation issued with the handle appends its request; `PARMCI_Wait` and
`PARMCI_Test` complete all of them or none.

Initialising a handle and switching aggregation on or off are the same three
assignments, whatever the handle holds. `requests_conserved_iff` says what
follows: no request is lost exactly in the runs that switch aggregation only
on a handle without requests.
-/

namespace ArmciMpi.Nonblocking

variable {R : Type}

/-- `armci_hdl_t`; `none` is `MPI_REQUEST_NULL` and the null array. -/
structure Handle (R : Type) where
  batchSize : Int
  singleRequest : Option R
  requestArray : Option (List (Option R))

/-- What a call leaves behind: the handle, the requests MPI completed in it
and the warnings it printed. -/
structure Outcome (R : Type) where
  handle : Handle R
  completed : List R
  warnings : List String

/-- The three assignments of `ARMCI_INIT_HANDLE`. -/
def initHandle : Handle R := ⟨0, none, none⟩

/-- `ARMCI_SET_AGGREGATE_HANDLE` does not look at what the handle holds. -/
def setAggregateHandle (_ : Handle R) : Handle R := ⟨0, none, none⟩

/-- `ARMCI_UNSET_AGGREGATE_HANDLE`, as above. -/
def unsetAggregateHandle (_ : Handle R) : Handle R := ⟨0, none, none⟩

def warnIf (c : Prop) [Decidable c] (msg : String) : List String := if c then [msg] else []

def gmrHandleAddRequest (h : Handle R) (req : R) : Outcome R :=
  if h.batchSize < 0 then
    ⟨h, [], ["gmr_handle_add_request passed a bogus (uninitialized) handle.\n"]⟩
  else if h.batchSize = 0 then
    ⟨{ h with batchSize := 1, singleRequest := some req }, [],
      warnIf (h.singleRequest.isSome = true)
        "gmr_handle_add_request: handle is corrupt (single_request_array is not MPI_REQUEST_NULL).\n"⟩
  else if h.batchSize = 1 then
    ⟨⟨2, none, some [h.singleRequest, some req]⟩, [],
      warnIf (h.singleRequest.isSome = false)
        "gmr_handle_add_request: handle is corrupt (single_request_array is MPI_REQUEST_NULL).\n"⟩
  else
    ⟨{ h with batchSize := h.batchSize + 1
              requestArray := some (h.requestArray.getD [] ++ [some req]) }, [],
      warnIf (h.singleRequest.isSome = true)
        "gmr_handle_add_request: handle is corrupt (single_request_array is not MPI_REQUEST_NULL).\n" ++
      warnIf (h.requestArray.isSome = false)
        "gmr_handle_add_request: handle is corrupt (request_array is NULL).\n"⟩

/-- The requests `MPI_Waitall` and `MPI_Testall` are given. -/
def Handle.batch (h : Handle R) : List R :=
  ((h.requestArray.getD []).take h.batchSize.toNat).filterMap id

def parmciWait (h : Handle R) : Outcome R :=
  if h.batchSize < 0 then
    ⟨h, [], ["ARMCI_Wait passed a bogus (uninitialized) handle.\n"]⟩
  else if h.batchSize = 0 then
    ⟨h, [], ["ARMCI_Wait passed an inactive handle.\n"]⟩
  else if h.batchSize = 1 then
    ⟨⟨0, none, none⟩, h.singleRequest.toList,
      warnIf (h.singleRequest.isSome = false)
        "ARMCI_Wait: handle is corrupt (single_request_array is MPI_REQUEST_NULL)\n"⟩
  else
    ⟨⟨0, none, none⟩, h.batch,
      warnIf (h.singleRequest.isSome = true)
        "ARMCI_Wait: handle is corrupt (single_request_array is not MPI_REQUEST_NULL)\n" ++
      warnIf (h.requestArray.isSome = false)
        "ARMCI_Wait: handle is corrupt (request_array is NULL)\n"⟩

/-- `PARMCI_Test`; `flag` is what `MPI_Test` or `MPI_Testall` reports. A false
flag completes nothing. The call returns `!flag`, 1 on an empty handle. -/
def parmciTest (h : Handle R) (flag : Bool) : Outcome R × Int :=
  if h.batchSize < 0 then
    (⟨h, [], ["ARMCI_Test passed a bogus (uninitialized) handle.\n"]⟩, 1)
  else if h.batchSize = 0 then
    (⟨h, [], ["ARMCI_Test passed an inactive handle.\n"]⟩, 1)
  else if h.batchSize = 1 then
    let warnings :=
      warnIf (h.singleRequest.isSome = false)
        "ARMCI_Test: handle is corrupt (single_request_array is MPI_REQUEST_NULL)\n" ++
      warnIf (h.requestArray.isSome = true)
        "ARMCI_Test: handle is corrupt (request_array is not NULL)\n"
    if flag then (⟨⟨0, none, none⟩, h.singleRequest.toList, warnings⟩, 0)
    else (⟨h, [], warnings⟩, 1)
  else
    let warnings :=
      warnIf (h.singleRequest.isSome = true)
        "ARMCI_Test: handle is corrupt (single_request_array is not MPI_REQUEST_NULL)\n" ++
      warnIf (h.requestArray.isSome = false)
        "ARMCI_Test: handle is corrupt (request_array is NULL)\n"
    if flag then (⟨⟨0, none, none⟩, h.batch, warnings⟩, 0)
    else (⟨h, [], warnings⟩, 1)

-- ------------------------------
-- Runs
-- ------------------------------

inductive Call (R : Type)
  | add (req : R)
  | setAggregate
  | unsetAggregate
  | wait
  | test (flag : Bool)

structure Track (R : Type) where
  handle : Handle R
  added : List R
  completed : List R
  warnings : List String

def Track.start : Track R := ⟨initHandle, [], [], []⟩

def Track.record (s : Track R) (o : Outcome R) : Track R :=
  { s with handle := o.handle, completed := s.completed ++ o.completed
           warnings := s.warnings ++ o.warnings }

def Track.call (s : Track R) : Call R → Track R
  | .add req => { s.record (gmrHandleAddRequest s.handle req) with added := s.added ++ [req] }
  | .setAggregate => { s with handle := setAggregateHandle s.handle }
  | .unsetAggregate => { s with handle := unsetAggregateHandle s.handle }
  | .wait => s.record (parmciWait s.handle)
  | .test flag => s.record (parmciTest s.handle flag).1

def runs (calls : List (Call R)) : Track R := calls.foldl Track.call .start

def Handle.recorded (h : Handle R) : List R :=
  if h.batchSize ≤ 0 then [] else if h.batchSize = 1 then h.singleRequest.toList else h.batch

/-- The representation of a handle whose pending requests are `pending`, in
issue order. -/
def Handle.Holds (h : Handle R) (pending : List R) : Prop :=
  h.batchSize = pending.length ∧
  match pending with
  | [] => h.singleRequest = none ∧ h.requestArray = none
  | [r] => h.singleRequest = some r ∧ h.requestArray = none
  | _ => h.singleRequest = none ∧ h.requestArray = some (pending.map some)

/-- Nothing is lost: the requests added are those completed and those still
recorded, and the handle holds the recorded ones, the last ones issued. -/
def Track.Conserved (s : Track R) : Prop :=
  (s.added : Multiset R) = s.completed + s.handle.recorded ∧
  s.handle.Holds s.handle.recorded ∧ s.handle.recorded <:+ s.added

def Call.Quiet (s : Track R) : Call R → Prop
  | .setAggregate | .unsetAggregate => s.handle.batchSize = 0
  | _ => True

theorem runs_snoc (calls : List (Call R)) (c : Call R) :
    runs (calls ++ [c]) = (runs calls).call c := by
  simp [runs]

-- ------------------------------
-- A handle is a list of pending requests
-- ------------------------------

/-- The one handle that holds `pending`. -/
def Handle.ofPending : List R → Handle R
  | [] => ⟨0, none, none⟩
  | [r] => ⟨1, some r, none⟩
  | r :: r' :: rs => ⟨rs.length + 2, none, some ((r :: r' :: rs).map some)⟩

open Handle (ofPending)

theorem size_ge_two (n : Nat) :
    ¬ (n : Int) + 2 < 0 ∧ ¬ (n : Int) + 2 ≤ 0 ∧ ¬ (n : Int) + 2 = 0 ∧ ¬ (n : Int) + 2 = 1 := by
  omega

theorem holds_iff {h : Handle R} {pending : List R} :
    h.Holds pending ↔ h = ofPending pending := by
  obtain ⟨size, single, array⟩ := h
  match pending with
  | [] => simp [Handle.Holds, ofPending]
  | [r] => simp [Handle.Holds, ofPending]
  | r :: r' :: rs => simp [Handle.Holds, ofPending, Int.add_assoc]

theorem ofPending_size (pending : List R) : (ofPending pending).batchSize = pending.length := by
  match pending with
  | [] => rfl
  | [r] => rfl
  | r :: r' :: rs => simp [ofPending, Int.add_assoc]

theorem ofPending_batch (r r' : R) (rs : List R) :
    (ofPending (r :: r' :: rs)).batch = r :: r' :: rs := by
  have htake : ((rs.length : Int) + 2).toNat = rs.length + 2 := by omega
  simp [Handle.batch, ofPending, htake, List.take_of_length_le]

@[simp] theorem ofPending_recorded (pending : List R) :
    (ofPending pending).recorded = pending := by
  match pending with
  | [] => rfl
  | [r] => rfl
  | r :: r' :: rs =>
    have hsize : (ofPending (r :: r' :: rs)).batchSize = rs.length + 2 := rfl
    simp only [Handle.recorded, hsize, size_ge_two, ↓reduceIte, ofPending_batch]

theorem gmrHandleAddRequest_ok (pending : List R) (req : R) :
    gmrHandleAddRequest (ofPending pending) req = ⟨ofPending (pending ++ [req]), [], []⟩ := by
  match pending with
  | [] => simp [gmrHandleAddRequest, ofPending, warnIf]
  | [r] => simp [gmrHandleAddRequest, ofPending, warnIf]
  | r :: r' :: rs =>
    have hsucc : (rs.length : Int) + 2 + 1 = rs.length + 1 + 2 := by omega
    simp [gmrHandleAddRequest, ofPending, warnIf, size_ge_two, hsucc]

theorem parmciWait_ok {pending : List R} (hp : pending ≠ []) :
    parmciWait (ofPending pending) = ⟨ofPending [], pending, []⟩ := by
  match pending with
  | [r] => simp [parmciWait, ofPending, warnIf]
  | r :: r' :: rs =>
    have hbatch := ofPending_batch r r' rs
    simp [ofPending] at hbatch
    simp [parmciWait, ofPending, warnIf, size_ge_two, hbatch]

theorem parmciTest_ok {pending : List R} (hp : pending ≠ []) (flag : Bool) :
    parmciTest (ofPending pending) flag =
      if flag then (⟨ofPending [], pending, []⟩, 0) else (⟨ofPending pending, [], []⟩, 1) := by
  match pending with
  | [r] => simp [parmciTest, ofPending, warnIf]
  | r :: r' :: rs =>
    have hbatch := ofPending_batch r r' rs
    simp [ofPending] at hbatch
    simp [parmciTest, ofPending, warnIf, size_ge_two, hbatch]

-- ------------------------------
-- Conservation
-- ------------------------------

def Track.Inv (s : Track R) : Prop :=
  ∃ pending, s.handle = ofPending pending ∧ s.added = s.completed ++ pending

theorem Track.Inv.conserved {s : Track R} (hs : s.Inv) : s.Conserved := by
  obtain ⟨pending, hhandle, hadded⟩ := hs
  refine ⟨?_, ?_, ?_⟩
  · rw [hadded, hhandle, ofPending_recorded, Multiset.coe_add]
  · rw [holds_iff, hhandle, ofPending_recorded]
  · rw [hadded, hhandle, ofPending_recorded]
    exact List.suffix_append _ _

theorem Track.Inv.call {s : Track R} (hs : s.Inv) {c : Call R} (hc : c.Quiet s) :
    (s.call c).Inv := by
  obtain ⟨pending, hhandle, hadded⟩ := hs
  cases c with
  | add req =>
    refine ⟨pending ++ [req], ?_, ?_⟩ <;>
      simp [Track.call, Track.record, hhandle, hadded, gmrHandleAddRequest_ok]
  | setAggregate | unsetAggregate =>
    -- quiet: the handle was empty, so resetting it changes nothing
    simp only [Call.Quiet, hhandle, ofPending_size, Int.natCast_eq_zero,
      List.length_eq_zero_iff] at hc
    subst hc
    exact ⟨[], rfl, hadded⟩
  | wait =>
    by_cases hp : pending = []
    · subst hp
      exact ⟨[], by simp [Track.call, Track.record, hhandle, ofPending, parmciWait],
        by simp [Track.call, Track.record, hhandle, hadded, ofPending, parmciWait]⟩
    · refine ⟨[], ?_, ?_⟩ <;>
        simp [Track.call, Track.record, hhandle, hadded, parmciWait_ok hp]
  | test flag =>
    by_cases hp : pending = []
    · subst hp
      exact ⟨[], by simp [Track.call, Track.record, hhandle, ofPending, parmciTest],
        by simp [Track.call, Track.record, hhandle, hadded, ofPending, parmciTest]⟩
    · cases flag
      · refine ⟨pending, ?_, ?_⟩ <;>
          simp [Track.call, Track.record, hhandle, hadded, parmciTest_ok hp]
      · refine ⟨[], ?_, ?_⟩ <;>
          simp [Track.call, Track.record, hhandle, hadded, parmciTest_ok hp]

theorem not_conserved_of_reset {s : Track R} (hs : s.Conserved)
    (hsize : s.handle.batchSize ≠ 0) : ¬ Track.Conserved { s with handle := initHandle } := by
  intro ht
  have hcard := congrArg Multiset.card (hs.1.symm.trans ht.1)
  have hreset : (initHandle : Handle R).recorded = [] := rfl
  simp only [hreset, Multiset.coe_add, Multiset.coe_card, List.length_append, List.length_nil,
    Nat.add_eq_left, Nat.add_zero] at hcard
  exact hsize (by rw [hs.2.1.1, hcard]; rfl)

theorem Track.Conserved.quiet {s : Track R} (hs : s.Conserved) {c : Call R}
    (ht : (s.call c).Conserved) : c.Quiet s := by
  cases c with
  | add | wait | test => trivial
  | setAggregate | unsetAggregate => exact of_not_not fun h => not_conserved_of_reset hs h ht

/-- No request is lost, after any number of calls, exactly when aggregation is
never switched on a handle with requests. -/
theorem requests_conserved_iff (calls : List (Call R)) :
    (∀ done, done <+: calls → (runs done).Conserved) ↔
      ∀ done c, done ++ [c] <+: calls → c.Quiet (runs done) := by
  constructor
  · intro h done c hc
    refine (h done ((List.prefix_append done [c]).trans hc)).quiet ?_
    rw [← runs_snoc]
    exact h _ hc
  · intro h done
    suffices hinv : done <+: calls → (runs done).Inv from fun hd => (hinv hd).conserved
    -- the induction is on the calls made so far
    induction done using List.reverseRecOn with
    | nil => exact fun _ => ⟨[], rfl, rfl⟩
    | append_singleton done c ih =>
      intro hd
      rw [runs_snoc]
      exact (ih ((List.prefix_append done [c]).trans hd)).call (h done c hd)

/-- A request is issued and aggregation switched on: the request is neither
completed nor recorded. -/
theorem setAggregate_drops :
    ¬ (runs [Call.add 7, Call.setAggregate]).Conserved := by
  intro h
  have hadded := h.1
  simp [runs, Track.call, Track.record, Track.start, initHandle, gmrHandleAddRequest,
    setAggregateHandle, Handle.recorded] at hadded

end ArmciMpi.Nonblocking
