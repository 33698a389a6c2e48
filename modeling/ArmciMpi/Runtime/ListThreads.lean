import ArmciMpi.Lib.Transition
import ArmciMpi.Lib.LinkedList
import ArmciMpi.Nonblocking.Requests
import ArmciMpi.Runtime.Gmr

/-!
# Threads on the region list

One process at `MPI_THREAD_MULTIPLE`. Its threads append regions to `gmr_list` and
unlink them while they hold `gmr_list_mutex`; `gmr_lookup` and the loops of the
fences and waits walk along the list without it. A step is one statement that
reads or writes the list, and the threads interleave in any order, with
sequentially consistent memory. In the Open MPI 5 build the same mutex is held by
an operation with a handle from `gmr_request_rma_begin` to `gmr_request_rma_end`.

The caller's part of the bargain is `Contract`: no region is destroyed while a
thread walks along the list, none is destroyed twice, requests are issued on
regions that are on the list, an address is looked up for a process of the world,
and a process is only fenced while it is in the group of every region.

`Inv` is the invariant: with the write that the owner of the mutex has still to do,
the cells are linked into the list `live`, and each thread knows at its statement
what `Place` says. `Rely` is what the step of a thread leaves to the others.
-/

namespace ArmciMpi.ListThreads

open Lib

-- ------------------------------
-- The threads
-- ------------------------------

/-- What a walk along the list does at a region. `gmr_lookup` compares an address. The
others visit every region: `PARMCI_Fence` and `PARMCI_WaitProc` call `gmr_flush`,
`PARMCI_AllFence` and `PARMCI_WaitAll` call `gmr_flushall`, `ARMCII_Sync` calls
`gmr_sync`. -/
inductive Query
  | lookup (ptr : Int) (proc : Nat)
  | flush (proc : Nat)
  | flushall
  | sync

def Query.stops : Query → Gmr → Bool
  | .lookup ptr proc, mreg => (mreg.slice proc).Contains ptr
  | _, _ => false

/-- The assertions at a region, and whether the walk ends there. -/
def Query.test (world : World) : Query → Gmr → Except String Bool
  | .lookup ptr proc, mreg =>
    if ¬ proc < mreg.nslices then .error "proc < mreg->nslices"
    else .ok (Query.stops (.lookup ptr proc) mreg)
  | .flush proc, mreg => do
    let grpProc ← translateAbsoluteToGroup world mreg.group proc
    let grpMe ← translateAbsoluteToGroup world mreg.group world.rank
    if ¬ (0 ≤ grpProc ∧ 0 ≤ grpMe) then throw "grp_proc >= 0 && grp_me >= 0"
    let _ ← mreg.getWindow
    if ¬ grpProc < mreg.group.size then throw "grp_proc exceeds group size!"
    return false
  | .flushall, mreg => do
    let grpMe ← translateAbsoluteToGroup world mreg.group world.rank
    if ¬ 0 ≤ grpMe then throw "grp_me >= 0"
    let _ ← mreg.getWindow
    return false
  | .sync, mreg => do
    let _ ← mreg.getWindow
    return false

def Query.InRange (nproc : Nat) : Query → Prop
  | .lookup _ proc => proc < nproc
  | _ => True

instance (nproc : Nat) : DecidablePred (Query.InRange nproc)
  | .lookup _ proc => inferInstanceAs (Decidable (proc < nproc))
  | .flush _ | .flushall | .sync => .isTrue trivial

def hasMember (world : World) (mreg : Gmr) (proc : Nat) : Bool :=
  match translateAbsoluteToGroup world mreg.group proc with
  | .ok grpProc => 0 ≤ grpProc ∧ grpProc < mreg.group.size
  | .error _ => false

/-- A process may be fenced at the regions whose group it is in. -/
def Query.Passes (world : World) : Query → Gmr → Prop
  | .flush proc, mreg => hasMember world mreg proc = true
  | _, _ => True

instance (world : World) (mreg : Gmr) : (query : Query) → Decidable (query.Passes world mreg)
  | .flush proc => inferInstanceAs (Decidable (hasMember world mreg proc = true))
  | .lookup _ _ | .flushall | .sync => .isTrue trivial

/-- `gmr_create` makes a window on the group of the caller. -/
def Created (world : World) (mreg : Gmr) : Prop :=
  mreg.window.isSome = true ∧ hasMember world mreg world.rank = true

instance (world : World) (mreg : Gmr) : Decidable (Created world mreg) :=
  inferInstanceAs (Decidable (_ ∧ _))

theorem hasMember_iff {world : World} {mreg : Gmr} {proc : Nat} :
    hasMember world mreg proc = true ↔ ∃ grpProc,
      translateAbsoluteToGroup world mreg.group proc = .ok grpProc ∧ 0 ≤ grpProc ∧
        grpProc < mreg.group.size := by
  unfold hasMember
  cases translateAbsoluteToGroup world mreg.group proc <;> simp

theorem Query.test_eq {world : World} {query : Query} {mreg : Gmr} (hc : Created world mreg)
    (hp : query.Passes world mreg) (hr : query.InRange mreg.nslices) :
    query.test world mreg = .ok (query.stops mreg) := by
  obtain ⟨hwin, hme⟩ := hc
  obtain ⟨win, hwin⟩ := Option.isSome_iff_exists.mp hwin
  obtain ⟨grpMe, hme, hnonneg, -⟩ := hasMember_iff.mp hme
  have hget : mreg.getWindow = .ok win := by simp [Gmr.getWindow, hwin]
  cases query with
  | lookup ptr proc => exact if_neg (not_not.mpr hr)
  | flush proc =>
    obtain ⟨grpProc, hproc, hpos, hlt⟩ := hasMember_iff.mp hp
    simp [Query.test, hproc, hme, hget, hpos, hnonneg, hlt, Query.stops, bind, Except.bind, pure,
      Except.pure]
  | flushall =>
    simp [Query.test, hme, hget, hnonneg, Query.stops, bind, Except.bind, pure, Except.pure]
  | sync => simp [Query.test, hget, Query.stops, bind, Except.bind, pure, Except.pure]

/-- A walk in progress. `start`, the regions listed at the call, and `seen`, the ones
passed since, are not in the source. -/
structure Walk where
  query : Query
  start : List (Nat × Gmr)
  seen : List (Nat × Gmr)

/-- The statement a thread is at; `a` is the address of the region it was called for. -/
inductive Pc
  | idle
  -- gmr_create, from the mutex on
  | createLock (a : Nat)
  | createHead (a : Nat)
  | createFirst (a : Nat)
  | createWalk (a parent : Nat)
  | createNext (a parent : Nat)
  | createPrev (a parent : Nat)
  -- gmr_destroy, from the mutex on; `p` is `mreg->prev`
  | destroyLock (a : Nat)
  | destroyTest (a : Nat)
  | destroyHead (a : Nat)
  | destroyNext (a : Nat)
  | destroyPrev (a : Nat) (p : Option Nat)
  | destroyUnlock (a : Nat)
  | destroyEpoch (a : Nat)
  | destroyFree (a : Nat)
  -- a walk along the list
  | walkHead (w : Walk)
  | walkTest (w : Walk) (mreg : Option Nat)
  | walkNext (w : Walk) (mreg : Nat)
  -- an operation with a handle
  | rmaLock (a : Nat)
  | rmaBegin (a : Nat)
  | rmaFlush (a : Nat) (mreg : Option Nat)
  | rmaIssue (a : Nat)
  | rmaEnd
  -- pthread_mutex_unlock of gmr_create and gmr_request_rma_end
  | unlock
  | aborted (msg : String)

namespace Pc

/-- Between `pthread_mutex_lock` and `pthread_mutex_unlock`. -/
def critical : Pc → Bool
  | createHead _ | createFirst _ | createWalk _ _ | createNext _ _ | createPrev _ _ => true
  | destroyTest _ | destroyHead _ | destroyNext _ | destroyPrev _ _ | destroyUnlock _ => true
  | rmaBegin _ | rmaFlush _ _ | rmaIssue _ | rmaEnd | unlock => true
  | _ => false

def claim : Pc → Option Nat
  | createLock a | createHead a | createFirst a | createWalk a _ | createNext a _
  | createPrev a _ => some a
  | destroyLock a | destroyTest a | destroyHead a | destroyNext a | destroyPrev a _
  | destroyUnlock a | destroyEpoch a | destroyFree a => some a
  | _ => none

def issues : Pc → Option Nat
  | rmaIssue a => some a
  | _ => none

def destroying : Pc → Bool
  | destroyLock _ | destroyTest _ | destroyHead _ | destroyNext _ | destroyPrev _ _
  | destroyUnlock _ | destroyEpoch _ | destroyFree _ => true
  | _ => false

def walking : Pc → Bool
  | walkHead _ | walkTest _ _ | walkNext _ _ => true
  | _ => false

def query : Pc → Option Query
  | walkHead w | walkTest w _ | walkNext w _ => some w.query
  | _ => none

end Pc

structure Answer extends Walk where
  found : Option Nat
  stop : List (Nat × Gmr)

/-- The process. `outstanding` are the requests MPI has not completed, by region.
`live`, the regions that are linked, and `answers` are not in the source. -/
structure State (n : Nat) where
  cells : Nat → Option (Cell Gmr)
  head : Option Nat
  owner : Option (Fin n)
  pc : Fin n → Pc
  issued : Nat
  outstanding : Nat → Nat
  live : List (Nat × Gmr)
  answers : List Answer

inductive Call
  | create (a : Nat) (mreg : Gmr)
  | destroy (a : Nat)
  | walk (query : Query)
  | rma (a : Nat)

/-- A thread calls, a thread executes its next statement, or MPI completes a request. -/
inductive Act (n : Nat)
  | call (i : Fin n) (c : Call)
  | step (i : Fin n)
  | complete (a : Nat)

namespace State

variable {n : Nat}

def empty : State n := ⟨fun _ => none, none, none, fun _ => .idle, 0, fun _ => 0, [], []⟩

def addrs (s : State n) : List Nat := s.live.map Prod.fst

def goto (s : State n) (i : Fin n) (p : Pc) : State n := { s with pc := Function.update s.pc i p }

/-- `*a`; a dangling pointer ends the process. -/
def deref (s : State n) (i : Fin n) (a : Nat) (k : Cell Gmr → State n) : State n :=
  match s.cells a with
  | some c => k c
  | none => s.goto i (.aborted "dangling pointer")

def store (s : State n) (a : Nat) (c : Option (Cell Gmr)) : State n :=
  { s with cells := Function.update s.cells a c }

def setOutstanding (s : State n) (a k : Nat) : State n :=
  { s with outstanding := Function.update s.outstanding a k }

def pthreadLock (s : State n) (i : Fin n) (p : Pc) : Option (State n) :=
  match s.owner with
  | none => some ({ s with owner := some i }.goto i p)
  | some _ => none

def pthreadUnlock (s : State n) (i : Fin n) (p : Pc) : State n := { s with owner := none }.goto i p

def link (s : State n) (a : Nat) (mreg : Gmr) : State n := { s with live := s.live ++ [(a, mreg)] }

def drop (s : State n) (a : Nat) : State n := { s with live := s.live.filter (·.1 ≠ a) }

def finish (s : State n) (i : Fin n) (w : Walk) (found : Option Nat) : State n :=
  { s with answers := s.answers ++ [(⟨w, found, s.live⟩ : Answer)] }.goto i .idle

def turn (world : World) (s : State n) (i : Fin n) : Option (State n) :=
  match s.pc i with
  | .idle | .aborted _ => none
  | .createLock a => s.pthreadLock i (.createHead a)
  | .createHead a =>
    match s.head with
    | none => some (s.goto i (.createFirst a))
    | some h => some (s.goto i (.createWalk a h))
  | .createFirst a =>
    some (s.deref i a fun c => ({ s with head := some a }.link a c.val).goto i .unlock)
  | .createWalk a parent =>
    some (s.deref i parent fun c =>
      match c.next with
      | none => s.goto i (.createNext a parent)
      | some b => s.goto i (.createWalk a b))
  | .createNext a parent =>
    some (s.deref i parent fun c => s.deref i a fun d =>
      ((s.store parent (some { c with next := some a })).link a d.val).goto i
        (.createPrev a parent))
  | .createPrev a parent =>
    some (s.deref i a fun c => (s.store a (some { c with prev := some parent })).goto i .unlock)
  | .destroyLock a => s.pthreadLock i (.destroyTest a)
  | .destroyTest a =>
    some (s.deref i a fun c =>
      match c.prev with
      | none => s.goto i (.destroyHead a)
      | some _ => s.goto i (.destroyNext a))
  | .destroyHead a =>
    if s.head = some a then
      some (s.deref i a fun c => ({ s with head := c.next }.drop a).goto i (.destroyPrev a none))
    else some (s.goto i (.aborted "gmr_list == mreg"))
  | .destroyNext a =>
    some (s.deref i a fun c =>
      match c.prev with
      | none => s.goto i (.aborted "dangling pointer")
      | some p => s.deref i p fun d =>
        ((s.store p (some { d with next := c.next })).drop a).goto i (.destroyPrev a (some p)))
  | .destroyPrev a p =>
    some (s.deref i a fun c =>
      match c.next with
      | none => s.goto i (.destroyUnlock a)
      | some b => s.deref i b fun d =>
        (s.store b (some { d with prev := p })).goto i (.destroyUnlock a))
  | .destroyUnlock a => some (s.pthreadUnlock i (.destroyEpoch a))
  -- MPI_Win_unlock_all
  | .destroyEpoch a =>
    some (s.deref i a fun c =>
      match c.val.window with
      | none => s.goto i (.aborted nullWindow)
      | some _ => (s.setOutstanding a 0).goto i (.destroyFree a))
  | .destroyFree a => some (s.deref i a fun _ => (s.store a none).goto i .idle)
  | .walkHead w => some (s.goto i (.walkTest w s.head))
  | .walkTest w none => some (s.finish i w none)
  | .walkTest w (some a) =>
    some (s.deref i a fun c =>
      match w.query.test world c.val with
      | .error msg => s.goto i (.aborted msg)
      | .ok true => s.finish i w (some a)
      | .ok false => s.goto i (.walkNext { w with seen := w.seen ++ [(a, c.val)] } a))
  | .walkNext w a => some (s.deref i a fun c => s.goto i (.walkTest w c.next))
  | .rmaLock a => s.pthreadLock i (.rmaBegin a)
  | .rmaBegin a =>
    if Nonblocking.requestRmaLimit ≤ s.issued then some (s.goto i (.rmaFlush a s.head))
    else some (s.goto i (.rmaIssue a))
  | .rmaFlush a none => some ({ s with issued := 0 }.goto i (.rmaIssue a))
  -- MPI_Win_flush_local_all
  | .rmaFlush a (some b) =>
    some (s.deref i b fun c => (s.setOutstanding b 0).goto i (.rmaFlush a c.next))
  | .rmaIssue a => some ((s.setOutstanding a (s.outstanding a + 1)).goto i .rmaEnd)
  | .rmaEnd => some ({ s with issued := (s.issued + 1) % 2 ^ 32 }.goto i .unlock)
  | .unlock => some (s.pthreadUnlock i .idle)

/-- A call by a thread that is in no other call. `malloc` gives an address that is not in
use, and `gmr_create` fills in the region before it takes the mutex. -/
def enter (world : World) (s : State n) (i : Fin n) : Call → Option (State n)
  | .create a mreg =>
    match s.cells a with
    | none =>
      some ((s.store a (some ⟨{ mreg with nslices := world.size }, none, none⟩)).goto i
        (.createLock a))
    | some _ => none
  | .destroy a => some (s.goto i (.destroyLock a))
  | .walk query => some (s.goto i (.walkHead ⟨query, s.live, []⟩))
  | .rma a => some (s.goto i (.rmaLock a))

def next (world : World) (s : State n) : Act n → Option (State n)
  | .call i c =>
    match s.pc i with
    | .idle => s.enter world i c
    | _ => none
  | .step i => s.turn world i
  | .complete a => some (s.setOutstanding a (s.outstanding a - 1))

end State

def system (world : World) (n : Nat) : System (State n) (Act n) where
  init s := s = .empty
  next := State.next world

def Contract (world : World) {n : Nat} (s : State n) : Act n → Prop
  | .call _ (.create _ mreg) =>
    Created world mreg ∧ ∀ j, ∀ query ∈ (s.pc j).query, query.Passes world mreg
  | .call _ (.destroy a) =>
    a ∈ s.addrs ∧ (∀ j, (s.pc j).claim ≠ some a) ∧ ∀ j, (s.pc j).walking = false
  | .call _ (.walk query) =>
    query.InRange world.size ∧ (∀ j, (s.pc j).destroying = false) ∧
      (∀ x ∈ s.live, query.Passes world x.2) ∧
      -- the regions of the calls that have not linked theirs yet
      ∀ j, ∀ a ∈ (s.pc j).claim, ∀ c ∈ s.cells a, query.Passes world c.val
  | .step i => ∀ a ∈ (s.pc i).issues, a ∈ s.addrs
  | _ => True

instance (world : World) {n : Nat} (s : State n) : DecidablePred (Contract world s)
  | .call _ (.create _ mreg) => inferInstanceAs (Decidable (Created world mreg ∧
      ∀ j, ∀ query ∈ (s.pc j).query, query.Passes world mreg))
  | .call _ (.destroy a) => inferInstanceAs (Decidable (a ∈ s.addrs ∧
      (∀ j, (s.pc j).claim ≠ some a) ∧ ∀ j, (s.pc j).walking = false))
  | .call _ (.walk query) => inferInstanceAs (Decidable (query.InRange world.size ∧
      (∀ j, (s.pc j).destroying = false) ∧ (∀ x ∈ s.live, query.Passes world x.2) ∧
      ∀ j, ∀ a ∈ (s.pc j).claim, ∀ c ∈ s.cells a, query.Passes world c.val))
  | .step i => inferInstanceAs (Decidable (∀ a ∈ (s.pc i).issues, a ∈ s.addrs))
  | .call _ (.rma _) | .complete _ => .isTrue trivial

-- ------------------------------
-- Where the threads stand
-- ------------------------------

/-- The write to a `prev` pointer that the owner of the mutex has still to do. -/
def Pc.settle (p : Pc) (cells : Nat → Option (Cell Gmr)) : Nat → Option (Cell Gmr) :=
  match p with
  | .createPrev a parent => setPrev cells (some a) (some parent)
  | .destroyPrev a p => setPrev cells ((cells a).bind Cell.next) p
  | _ => cells

namespace State

variable {n : Nat} (nproc : Nat) (s : State n)

def settled : Nat → Option (Cell Gmr) :=
  match s.owner with
  | some i => (s.pc i).settle s.cells
  | none => s.cells

def Fresh (a : Nat) : Prop :=
  (∃ mreg, s.cells a = some ⟨mreg, none, none⟩ ∧ mreg.nslices = nproc) ∧ a ∉ s.addrs

def Unlinked (a : Nat) : Prop := s.cells a ≠ none ∧ a ∉ s.addrs

/-- A walk has passed a beginning of the list and found nothing in it. -/
structure Passed (w : Walk) : Prop where
  seen : w.seen <+: s.live
  start : w.start <+: s.live
  none : ∀ x ∈ w.seen, w.query.stops x.2 = false
  proc : w.query.InRange nproc

def Place : Pc → Prop
  | .idle | .unlock | .rmaLock _ | .rmaBegin _ | .rmaIssue _ | .rmaEnd => True
  | .createLock a | .createHead a => s.Fresh nproc a
  | .createFirst a => s.Fresh nproc a ∧ s.live = []
  | .createWalk a parent => s.Fresh nproc a ∧ parent ∈ s.addrs
  | .createNext a parent => s.Fresh nproc a ∧ lastAddr s.live = some parent
  | .createPrev a _ => a ∈ s.addrs
  | .destroyLock a | .destroyTest a => a ∈ s.addrs
  | .destroyHead a => headAddr s.live = some a
  | .destroyNext a => a ∈ s.addrs ∧ headAddr s.live ≠ some a
  | .destroyPrev a _ => (∃ c, s.cells a = some c ∧ ∀ b, c.next = some b → b ∈ s.addrs) ∧ a ∉ s.addrs
  | .destroyUnlock a | .destroyEpoch a | .destroyFree a => s.Unlinked a
  | .walkHead w => s.Passed nproc w ∧ w.seen = []
  | .walkTest w none => s.Passed nproc w ∧ w.start <+: w.seen
  | .walkTest w (some a) => s.Passed nproc w ∧ ∃ mreg, w.seen ++ [(a, mreg)] <+: s.live
  | .walkNext w a => s.Passed nproc w ∧ lastAddr w.seen = some a
  | .rmaFlush _ mreg =>
    ∃ l r, s.live = l ++ r ∧ mreg = headAddr r ∧ ∀ x ∈ l, s.outstanding x.1 = 0
  | .aborted _ => False

end State

/-- The walk is a search in the list as it was at some moment between the call and the
return, and one that finds nothing has visited all of it. -/
def Answer.Linearizable (ans : Answer) : Prop :=
  ∃ xs, ans.start <+: xs ∧ xs <+: ans.stop ∧
    ans.found = (xs.find? fun x => ans.query.stops x.2).map Prod.fst ∧
    (ans.found = none → ans.seen = xs)

structure Inv (nproc : Nat) {n : Nat} (s : State n) : Prop where
  mutex : ∀ i, s.owner = some i ↔ (s.pc i).critical = true
  linked : Linked s.settled s.head s.live
  claims : ∀ i j a, (s.pc i).claim = some a → (s.pc j).claim = some a → i = j
  allocated : ∀ a, s.cells a ≠ none → a ∈ s.addrs ∨ ∃ i, (s.pc i).claim = some a
  apart : ∀ i j, (s.pc i).walking = true → (s.pc j).destroying = false
  sizes : ∀ x ∈ s.live, x.2.nslices = nproc
  place : ∀ i, s.Place nproc (s.pc i)
  answers : ∀ ans ∈ s.answers, ans.Linearizable

variable {nproc n : Nat} {s t : State n} {i j : Fin n}

-- ------------------------------
-- What a step leaves to the other threads
-- ------------------------------

/-- What a thread at `p` may rely on while another one makes the step from `s` to `t`. -/
structure Rely (s t : State n) (p : Pc) : Prop where
  unlinked : ∀ a, p.claim = some a → a ∉ s.addrs → t.cells a = s.cells a ∧ a ∉ t.addrs
  linked : ∀ a, p.claim = some a → a ∈ s.addrs → a ∈ t.addrs
  critical : p.critical = true → t.live = s.live ∧ ∀ b, t.outstanding b ≤ s.outstanding b
  walking : p.walking = true → s.live <+: t.live

theorem Rely.of_eq (hcells : t.cells = s.cells) (hlive : t.live = s.live)
    (hout : ∀ b, t.outstanding b ≤ s.outstanding b) (p : Pc) : Rely s t p where
  unlinked a _ ha := ⟨by rw [hcells], by rwa [State.addrs, hlive]⟩
  linked a _ ha := by rwa [State.addrs, hlive]
  critical _ := ⟨hlive, hout⟩
  walking _ := hlive ▸ List.prefix_refl _

theorem Rely.fresh {p : Pc} (hr : Rely s t p) (hp : p.claim = some a) (h : s.Fresh nproc a) :
    t.Fresh nproc a := by
  obtain ⟨⟨mreg, hc, hm⟩, ha⟩ := h
  obtain ⟨hcells, ha'⟩ := hr.unlinked a hp ha
  exact ⟨⟨mreg, hcells.trans hc, hm⟩, ha'⟩

theorem Rely.kept {p : Pc} (hr : Rely s t p) (hp : p.claim = some a) (h : s.Unlinked a) :
    t.Unlinked a := by
  obtain ⟨hcells, ha'⟩ := hr.unlinked a hp h.2
  exact ⟨hcells ▸ h.1, ha'⟩

theorem Rely.passed {p : Pc} (hr : Rely s t p) (hp : p.walking = true) (h : s.Passed nproc w) :
    t.Passed nproc w :=
  ⟨h.seen.trans (hr.walking hp), h.start.trans (hr.walking hp), h.none, h.proc⟩

/-- What is known at a statement is stable under the steps of the other threads. -/
theorem Rely.place {p : Pc} (hr : Rely s t p) (h : s.Place nproc p) : t.Place nproc p := by
  have hlive : p.critical = true → t.live = s.live := fun hc => (hr.critical hc).1
  cases p with
  | idle | unlock | rmaLock | rmaBegin | rmaIssue | rmaEnd => trivial
  | createLock a | createHead a => exact hr.fresh rfl h
  | createFirst a => exact ⟨hr.fresh rfl h.1, (hlive rfl).trans h.2⟩
  | createWalk a parent => exact ⟨hr.fresh rfl h.1, by rw [State.addrs, hlive rfl]; exact h.2⟩
  | createNext a parent => exact ⟨hr.fresh rfl h.1, by rw [hlive rfl]; exact h.2⟩
  | createPrev a parent => exact hr.linked a rfl h
  | destroyLock a | destroyTest a => exact hr.linked a rfl h
  | destroyHead a => exact (congrArg headAddr (hlive rfl)).trans h
  | destroyNext a => exact ⟨hr.linked a rfl h.1, by rw [hlive rfl]; exact h.2⟩
  | destroyPrev a p =>
    obtain ⟨⟨c, hc, hn⟩, ha⟩ := h
    obtain ⟨hcells, ha'⟩ := hr.unlinked a rfl ha
    exact ⟨⟨c, hcells.trans hc, by rw [State.addrs, hlive rfl]; exact hn⟩, ha'⟩
  | destroyUnlock a | destroyEpoch a | destroyFree a => exact hr.kept rfl h
  | walkHead w => exact ⟨hr.passed rfl h.1, h.2⟩
  | walkTest w mreg =>
    cases mreg with
    | none => exact ⟨hr.passed rfl h.1, h.2⟩
    | some a =>
      obtain ⟨hp, mreg, hm⟩ := h
      exact ⟨hr.passed rfl hp, mreg, hm.trans (hr.walking rfl)⟩
  | walkNext w a => exact ⟨hr.passed rfl h.1, h.2⟩
  | rmaFlush a mreg =>
    obtain ⟨l, r, hl, hm, hzero⟩ := h
    refine ⟨l, r, (hlive rfl).trans hl, hm, fun x hx => ?_⟩
    have hle := (hr.critical rfl).2 x.1
    rw [hzero x hx] at hle
    exact Nat.le_zero.mp hle
  | aborted msg => exact h

theorem State.Place.same {p : Pc} (h : s.Place nproc p) (hcells : t.cells = s.cells)
    (hlive : t.live = s.live) (hout : ∀ b, t.outstanding b ≤ s.outstanding b) : t.Place nproc p :=
  (Rely.of_eq hcells hlive hout p).place h

/-- The next statement of the same call, or the end of it. -/
structure Follows (p q : Pc) : Prop where
  claim : ∀ a, q.claim = some a → p.claim = some a
  walking : q.walking = true → p.walking = true
  destroying : q.destroying = true → p.destroying = true

theorem Follows.idle (p : Pc) : Follows p .idle := ⟨nofun, nofun, nofun⟩

theorem Follows.unlock (p : Pc) : Follows p .unlock := ⟨nofun, nofun, nofun⟩

theorem Follows.walk {p q : Pc} (hw : p.walking = true) (hc : q.claim = none)
    (hd : q.destroying = false) : Follows p q :=
  ⟨by simp [hc], fun _ => hw, by simp [hd]⟩

theorem Follows.free (p : Pc) {q : Pc} (hc : q.claim = none) (hw : q.walking = false)
    (hd : q.destroying = false) : Follows p q :=
  ⟨by simp [hc], by simp [hw], by simp [hd]⟩

theorem Pc.keeps_none {p q : Pc} (hq : q.claim = none) (a : Nat) (ha : q.claim = some a) :
    p.claim = some a := by
  rw [hq] at ha
  cases ha

/-- What the other threads are doing allows a thread to be at `p`. -/
structure Admits (s : State n) (i : Fin n) (p : Pc) : Prop where
  claim : ∀ a, p.claim = some a → ∀ j, j ≠ i → (s.pc j).claim ≠ some a
  walking : p.walking = true → ∀ j, j ≠ i → (s.pc j).destroying = false
  destroying : p.destroying = true → ∀ j, j ≠ i → (s.pc j).walking = false

theorem Pc.walking_destroying (p : Pc) (h : p.walking = true) : p.destroying = false := by
  cases p <;> first | rfl | cases h

theorem Inv.admits (h : Inv nproc s) (hi : s.pc i = q) (hf : Follows q p) : Admits s i p := by
  subst hi
  refine ⟨fun a ha j hj hja => hj (h.claims j i a hja (hf.claim a ha)),
    fun hw j _ => h.apart i j (hf.walking hw), fun hd j _ => ?_⟩
  by_contra hw
  have hno := h.apart j i (by simpa using hw)
  rw [hf.destroying hd] at hno
  cases hno

/-- A step that each of the other threads can rely on keeps the invariant. -/
theorem Inv.step (h : Inv nproc s) (hpc : t.pc = Function.update s.pc i p)
    (hmutex : ∀ j, t.owner = some j ↔ (t.pc j).critical = true)
    (hlinked : Linked t.settled t.head t.live) (hsizes : ∀ x ∈ t.live, x.2.nslices = nproc)
    (hadmits : Admits s i p) (hrely : ∀ j, j ≠ i → Rely s t (s.pc j))
    (halloc : ∀ a, t.cells a ≠ none → a ∈ t.addrs ∨ p.claim = some a ∨
      ∃ j, j ≠ i ∧ (s.pc j).claim = some a)
    (hplace : t.Place nproc p) (hans : ∀ ans ∈ t.answers, ans.Linearizable) :
    Inv nproc t := by
  have hpi : t.pc i = p := by simp [hpc]
  have hpj : ∀ j, j ≠ i → t.pc j = s.pc j := fun j hj => by simp [hpc, hj]
  refine ⟨hmutex, hlinked, fun j k a hj hk => ?_, fun a ha => ?_, fun j k hj => ?_, hsizes,
    fun j => ?_, hans⟩
  · by_cases hji : j = i <;> by_cases hki : k = i
    · rw [hji, hki]
    · rw [hji, hpi] at hj
      rw [hpj k hki] at hk
      exact absurd hk (hadmits.claim a hj k hki)
    · rw [hpj j hji] at hj
      rw [hki, hpi] at hk
      exact absurd hj (hadmits.claim a hk j hji)
    · rw [hpj j hji] at hj
      rw [hpj k hki] at hk
      exact h.claims j k a hj hk
  · rcases halloc a ha with ha | ha | ⟨j, hj, ha⟩
    · exact .inl ha
    · exact .inr ⟨i, by rw [hpi]; exact ha⟩
    · exact .inr ⟨j, by rw [hpj j hj]; exact ha⟩
  · by_cases hji : j = i <;> by_cases hki : k = i
    · rw [hji, hpi] at hj
      rw [hki, hpi]
      exact p.walking_destroying hj
    · rw [hji, hpi] at hj
      rw [hpj k hki]
      exact hadmits.walking hj k hki
    · rw [hpj j hji] at hj
      rw [hki, hpi]
      by_contra hd
      rw [hadmits.destroying (by simpa using hd) j hji] at hj
      cases hj
    · rw [hpj j hji] at hj
      rw [hpj k hki]
      exact h.apart j k hj
  · by_cases hj : j = i
    · rw [hj, hpi]
      exact hplace
    · rw [hpj j hj]
      exact (hrely j hj).place (h.place j)

-- ------------------------------
-- The regions and the list
-- ------------------------------

/-- A statement keeps the regions of the cells and what the walks are for, and links or
drops one region at most. -/
structure Moves (s t : State n) : Prop where
  vals : ∀ a c, t.cells a = some c → ∃ d, s.cells a = some d ∧ d.val = c.val
  query : ∀ j query, (t.pc j).query = some query → (s.pc j).query = some query
  live : t.live = s.live ∨ (∃ x, t.live = s.live ++ [x]) ∨ ∃ a, t.live = s.live.filter (·.1 ≠ a)

theorem vals_of_eq (hcells : t.cells = s.cells) (a : Nat) (c : Cell Gmr)
    (hc : t.cells a = some c) : ∃ d, s.cells a = some d ∧ d.val = c.val :=
  ⟨c, hcells ▸ hc, rfl⟩

theorem vals_of_update {b : Nat} {d : Option (Cell Gmr)}
    (hcells : t.cells = Function.update s.cells b d)
    (hd : ∀ e, d = some e → (s.cells b).map Cell.val = some e.val) (a : Nat) (c : Cell Gmr)
    (hc : t.cells a = some c) : ∃ d, s.cells a = some d ∧ d.val = c.val := by
  rw [hcells, Function.update_apply] at hc
  split at hc
  · rename_i ha
    exact ha ▸ Option.map_eq_some_iff.mp (hd c hc)
  · exact ⟨c, hc, rfl⟩

theorem query_of_update {p : Pc} (hpc : t.pc = Function.update s.pc i p)
    (hp : ∀ query, p.query = some query → (s.pc i).query = some query) (j : Fin n) (query : Query)
    (hj : (t.pc j).query = some query) : (s.pc j).query = some query := by
  rw [hpc, Function.update_apply] at hj
  split at hj
  · rename_i hji
    exact hji ▸ hp query hj
  · exact hj

theorem turn_moves {world : World} (ht : s.turn world i = some t) : Moves s t := by
  simp only [State.turn, State.deref, State.pthreadLock] at ht
  repeat' split at ht
  all_goals cases ht
  all_goals
    refine ⟨?_, query_of_update rfl fun query hq => ?_, ?_⟩
    · first
      | exact vals_of_eq rfl
      | refine vals_of_update rfl fun e he => ?_
        cases he <;> simp [*]
    -- only the statements of a walk have a query, which is that of the statement before
    · first
      | (cases hq; done)
      | simpa only [*, Pc.query] using hq
    · first
      | exact .inl rfl
      | exact .inr (.inl ⟨_, rfl⟩)
      | exact .inr (.inr ⟨_, rfl⟩)

/-- Every region was made by `gmr_create`, and the walks pass the assertions at all of them. -/
structure Regions (world : World) (s : State n) : Prop where
  created : ∀ a c, s.cells a = some c → Created world c.val
  passes : ∀ i query, (s.pc i).query = some query →
    ∀ a c, s.cells a = some c → query.Passes world c.val

namespace Regions

variable {world : World}

theorem init : Regions world (State.empty : State n) := ⟨nofun, nofun⟩

theorem moves (h : Regions world s) (hm : Moves s t) : Regions world t where
  created a c hc := by
    obtain ⟨d, hd, hv⟩ := hm.vals a c hc
    exact hv ▸ h.created a d hd
  passes i query hq a c hc := by
    obtain ⟨d, hd, hv⟩ := hm.vals a c hc
    exact hv ▸ h.passes i query (hm.query i query hq) a d hd

end Regions

end ArmciMpi.ListThreads
