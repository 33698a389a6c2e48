import ArmciMpi.Lib.Transition
import Mathlib.Data.List.FinRange
import Mathlib.Logic.Function.Basic

/-!
# The queueing mutex

`mutex_hdl_queue.c`: every mutex of a handle is a window of `nproc` bytes on
its host. Locking sets the caller's byte and reads the others in one
exclusive epoch; a caller that saw another byte set waits for an empty
message. Unlocking clears the byte in such an epoch and notifies the next
set byte to its right.

The steps of the model are the ones other processes can observe: the epoch
(MPI serialises exclusive epochs on one window and target), the send and the
receive. A notification in flight is what MPI sees of it, source, destination
and tag, with a ghost field naming the mutex it was sent for. The receive
matches on destination and tag only, and may take any matching message.
-/

namespace ArmciMpi.Mutex

variable {nproc : Nat}

structure MutexId (nproc : Nat) where
  num : Nat
  host : Fin nproc
  deriving DecidableEq, Repr

abbrev Bytes (nproc : Nat) := Fin nproc → UInt8

def mutexTag : Nat := 100

/-- `MPI_Put` of the own byte and `MPI_Get` of the bytes to the left and to
the right: the window afterwards and the local `buf`. -/
def epoch (rank : Fin nproc) (b : UInt8) (window : Bytes nproc) : Bytes nproc × Bytes nproc :=
  (Function.update window rank b, fun i => if i = rank then b else window i)

def alreadyLocked (rank : Fin nproc) (buf : Bytes nproc) : Bool :=
  (List.finRange nproc).any fun i => buf i != 0 && i != rank

/-- The process `i` places to the right of `rank`, cyclically. -/
def toRight (rank : Fin nproc) (i : Nat) : Fin nproc := ⟨(rank + i) % nproc, Nat.mod_lt _ rank.pos⟩

/-- The loop of the unlock: the next waiting process, starting to the right
of `rank` for fairness. -/
def nextWaiter (rank : Fin nproc) (buf : Bytes nproc) : Option (Fin nproc) :=
  ((List.range' 1 (nproc - 1)).map (toRight rank)).find? fun p => buf p == 1

/-- An undelivered notification; `sentFor` is not part of the message. -/
structure Msg (nproc : Nat) where
  src : Fin nproc
  dst : Fin nproc
  tag : Nat
  sentFor : MutexId nproc
  deriving DecidableEq

/-- Where a process stands in `ARMCIX_Lock_hdl` or `ARMCIX_Unlock_hdl`. -/
inductive Pc (nproc : Nat)
  | idle
  | waiting (μ : MutexId nproc)
  | sending (μ : MutexId nproc) (succ : Fin nproc)
  deriving DecidableEq

structure State (nproc : Nat) where
  window : MutexId nproc → Bytes nproc
  held : MutexId nproc → Fin nproc → Bool
  pc : Fin nproc → Pc nproc
  msgs : List (Msg nproc)

/-- `ARMCIX_Create_mutexes_hdl` zeroes every window. -/
def State.init : State nproc where
  window _ _ := 0
  held _ _ := false
  pc _ := .idle
  msgs := []

def State.acquire (s : State nproc) (p : Fin nproc) (μ : MutexId nproc) : State nproc :=
  { s with
    held := Function.update s.held μ (Function.update (s.held μ) p true)
    pc := Function.update s.pc p .idle }

def State.release (s : State nproc) (p : Fin nproc) (μ : MutexId nproc) : State nproc :=
  { s with held := Function.update s.held μ (Function.update (s.held μ) p false) }

def State.setWindow (s : State nproc) (μ : MutexId nproc) (w : Bytes nproc) : State nproc :=
  { s with window := Function.update s.window μ w }

def State.setPc (s : State nproc) (p : Fin nproc) (c : Pc nproc) : State nproc :=
  { s with pc := Function.update s.pc p c }

def State.deliver (s : State nproc) (k : Nat) : State nproc :=
  { s with msgs := s.msgs.eraseIdx k }

def State.post (s : State nproc) (m : Msg nproc) : State nproc :=
  { s with msgs := s.msgs ++ [m] }

section
variable (s : State nproc) (p q : Fin nproc) (μ ν : MutexId nproc)

@[simp, grind =] theorem State.acquire_window : (s.acquire p μ).window ν q = s.window ν q := rfl
@[simp, grind =] theorem State.acquire_held : (s.acquire p μ).held ν q =
    if ν = μ ∧ q = p then true else s.held ν q := by
  by_cases h : ν = μ <;> simp [State.acquire, Function.update_apply, h]
@[simp, grind =] theorem State.acquire_pc :
    (s.acquire p μ).pc q = if q = p then .idle else s.pc q := Function.update_apply ..
@[simp, grind =] theorem State.acquire_msgs : (s.acquire p μ).msgs = s.msgs := rfl

@[simp, grind =] theorem State.release_window : (s.release p μ).window ν q = s.window ν q := rfl
@[simp, grind =] theorem State.release_held : (s.release p μ).held ν q =
    if ν = μ ∧ q = p then false else s.held ν q := by
  by_cases h : ν = μ <;> simp [State.release, Function.update_apply, h]
@[simp, grind =] theorem State.release_pc : (s.release p μ).pc q = s.pc q := rfl
@[simp, grind =] theorem State.release_msgs : (s.release p μ).msgs = s.msgs := rfl

/-- The window after an epoch in which `p` wrote its byte. -/
@[simp, grind =] theorem State.setWindow_window :
    (s.setWindow μ (Function.update (s.window μ) p b)).window ν q =
      if ν = μ ∧ q = p then b else s.window ν q := by
  by_cases h : ν = μ <;> simp [State.setWindow, Function.update_apply, h]
@[simp, grind =] theorem State.setWindow_held : (s.setWindow μ w).held ν q = s.held ν q := rfl
@[simp, grind =] theorem State.setWindow_pc : (s.setWindow μ w).pc q = s.pc q := rfl
@[simp, grind =] theorem State.setWindow_msgs : (s.setWindow μ w).msgs = s.msgs := rfl

@[simp, grind =] theorem State.setPc_window : (s.setPc p c).window ν q = s.window ν q := rfl
@[simp, grind =] theorem State.setPc_held : (s.setPc p c).held ν q = s.held ν q := rfl
@[simp, grind =] theorem State.setPc_pc :
    (s.setPc p c).pc q = if q = p then c else s.pc q := Function.update_apply ..
@[simp, grind =] theorem State.setPc_msgs : (s.setPc p c).msgs = s.msgs := rfl

@[simp, grind =] theorem State.deliver_window : (s.deliver k).window ν q = s.window ν q := rfl
@[simp, grind =] theorem State.deliver_held : (s.deliver k).held ν q = s.held ν q := rfl
@[simp, grind =] theorem State.deliver_pc : (s.deliver k).pc q = s.pc q := rfl
@[simp, grind =] theorem State.deliver_msgs : (s.deliver k).msgs = s.msgs.eraseIdx k := rfl

@[simp, grind =] theorem State.post_window : (s.post m).window ν q = s.window ν q := rfl
@[simp, grind =] theorem State.post_held : (s.post m).held ν q = s.held ν q := rfl
@[simp, grind =] theorem State.post_pc : (s.post m).pc q = s.pc q := rfl
@[simp, grind =] theorem State.post_msgs : (s.post m).msgs = s.msgs ++ [m] := rfl

end

inductive Act (nproc : Nat)
  /-- The exclusive epoch of `ARMCIX_Lock_hdl`. -/
  | lock (p : Fin nproc) (μ : MutexId nproc)
  /-- `MPI_Recv` from any source takes the `k`-th message in flight. -/
  | recv (p : Fin nproc) (k : Nat)
  /-- The exclusive epoch of `ARMCIX_Unlock_hdl`. -/
  | unlock (p : Fin nproc) (μ : MutexId nproc)
  /-- `MPI_Send` to the successor. -/
  | send (p : Fin nproc)
  deriving DecidableEq

def lockHdl (s : State nproc) (p : Fin nproc) (μ : MutexId nproc) : State nproc :=
  let (w, buf) := epoch p 1 (s.window μ)
  if alreadyLocked p buf then (s.setWindow μ w).setPc p (.waiting μ)
  else (s.setWindow μ w).acquire p μ

def unlockHdl (s : State nproc) (p : Fin nproc) (μ : MutexId nproc) : State nproc :=
  let (w, buf) := epoch p 0 (s.window μ)
  match nextWaiter p buf with
  | some q => ((s.setWindow μ w).release p μ).setPc p (.sending μ q)
  | none => (s.setWindow μ w).release p μ

/-- The enabled steps. A process locks only mutexes it does not hold and
unlocks only mutexes it holds; both need it to be outside the two calls. -/
def next (s : State nproc) : Act nproc → Option (State nproc)
  | .lock p μ =>
    if s.pc p = .idle ∧ s.held μ p = false then some (lockHdl s p μ) else none
  | .recv p k =>
    match s.pc p, s.msgs[k]? with
    | .waiting μ, some m =>
      if m.dst = p ∧ m.tag = mutexTag + μ.num then
        some ((s.deliver k).acquire p μ)
      else none
    | _, _ => none
  | .unlock p μ =>
    if s.pc p = .idle ∧ s.held μ p = true then some (unlockHdl s p μ) else none
  | .send p =>
    match s.pc p with
    | .sending μ q =>
      some ((s.post ⟨p, q, mutexTag + μ.num, μ⟩).setPc p .idle)
    | _ => none

def system (nproc : Nat) : Lib.System (State nproc) (Act nproc) where
  init s := s = State.init
  next := next

-- ------------------------------
-- What a step can do
-- ------------------------------

theorem alreadyLocked_iff {rank : Fin nproc} {buf : Bytes nproc} :
    alreadyLocked rank buf = true ↔ ∃ i, i ≠ rank ∧ buf i ≠ 0 := by
  simp only [alreadyLocked, List.any_eq_true, List.mem_finRange, Bool.and_eq_true, bne_iff_ne,
    true_and]
  exact exists_congr fun i => And.comm

theorem toRight_surjective {rank p : Fin nproc} (h : p ≠ rank) :
    ∃ i, 1 ≤ i ∧ i < nproc ∧ toRight rank i = p := by
  have hp := p.isLt
  have hr := rank.isLt
  have hne : p.val ≠ rank.val := fun h' => h (Fin.ext h')
  by_cases hlt : rank.val < p.val
  · refine ⟨p - rank, by omega, by omega, Fin.ext ?_⟩
    show (rank.val + (p.val - rank.val)) % nproc = p.val
    rw [Nat.mod_eq_of_lt (by omega)]
    omega
  · refine ⟨nproc + p - rank, by omega, by omega, Fin.ext ?_⟩
    show (rank.val + (nproc + p.val - rank.val)) % nproc = p.val
    rw [show rank.val + (nproc + p.val - rank.val) = p.val + nproc by omega, Nat.add_mod_right,
      Nat.mod_eq_of_lt hp]

theorem toRight_ne {rank : Fin nproc} (h1 : 1 ≤ i) (h2 : i < nproc) : toRight rank i ≠ rank := by
  intro h
  have hv : (rank.val + i) % nproc = rank.val := congrArg Fin.val h
  have hr := rank.isLt
  by_cases hlt : rank.val + i < nproc
  · rw [Nat.mod_eq_of_lt hlt] at hv; omega
  · rw [Nat.mod_eq_sub_mod (by omega), Nat.mod_eq_of_lt (by omega)] at hv; omega

theorem nextWaiter_some {rank q : Fin nproc} {buf : Bytes nproc} (h : nextWaiter rank buf = some q) :
    q ≠ rank ∧ buf q = 1 := by
  have hb := List.find?_some h
  have hm := List.mem_of_find?_eq_some h
  simp only [List.mem_map, List.mem_range'_1] at hm
  obtain ⟨i, ⟨h1, h2⟩, rfl⟩ := hm
  exact ⟨toRight_ne h1 (by omega), by simpa using hb⟩

theorem nextWaiter_none {rank p : Fin nproc} {buf : Bytes nproc} (h : nextWaiter rank buf = none)
    (hp : p ≠ rank) : buf p ≠ 1 := by
  obtain ⟨i, h1, h2, rfl⟩ := toRight_surjective hp
  have hm : toRight rank i ∈ (List.range' 1 (nproc - 1)).map (toRight rank) :=
    List.mem_map.mpr ⟨i, List.mem_range'_1.mpr ⟨h1, by omega⟩, rfl⟩
  have := List.find?_eq_none.mp h _ hm
  simpa using this

inductive Does (s : State nproc) : Act nproc → State nproc → Prop
  | wait : s.pc p = .idle → s.held μ p = false → i ≠ p → s.window μ i ≠ 0 →
      Does s (.lock p μ) ((s.setWindow μ (Function.update (s.window μ) p 1)).setPc p (.waiting μ))
  | enter : s.pc p = .idle → s.held μ p = false → (∀ i, i ≠ p → s.window μ i = 0) →
      Does s (.lock p μ) ((s.setWindow μ (Function.update (s.window μ) p 1)).acquire p μ)
  | recv : s.pc p = .waiting μ → s.msgs[k]? = some m → m.dst = p → m.tag = mutexTag + μ.num →
      Does s (.recv p k) ((s.deliver k).acquire p μ)
  | handOff : s.pc p = .idle → s.held μ p = true → q ≠ p → s.window μ q = 1 →
      Does s (.unlock p μ)
        (((s.setWindow μ (Function.update (s.window μ) p 0)).release p μ).setPc p (.sending μ q))
  | leave : s.pc p = .idle → s.held μ p = true → (∀ i, i ≠ p → s.window μ i ≠ 1) →
      Does s (.unlock p μ) ((s.setWindow μ (Function.update (s.window μ) p 0)).release p μ)
  | send : s.pc p = .sending μ q →
      Does s (.send p) ((s.post ⟨p, q, mutexTag + μ.num, μ⟩).setPc p .idle)

theorem lockHdl_does {s : State nproc} (hpc : s.pc p = .idle) (hh : s.held μ p = false) :
    Does s (.lock p μ) (lockHdl s p μ) := by
  by_cases hl : alreadyLocked p (epoch p 1 (s.window μ)).2 = true
  · obtain ⟨i, hi, hb⟩ := alreadyLocked_iff.mp hl
    simp only [lockHdl, hl, ↓reduceIte]
    exact .wait hpc hh hi (by simpa [epoch, hi] using hb)
  · simp only [lockHdl, hl, Bool.false_eq_true, ↓reduceIte]
    refine .enter hpc hh fun i hi => ?_
    by_contra hb
    exact hl (alreadyLocked_iff.mpr ⟨i, hi, by simpa [epoch, hi] using hb⟩)

theorem unlockHdl_does {s : State nproc} (hpc : s.pc p = .idle) (hh : s.held μ p = true) :
    Does s (.unlock p μ) (unlockHdl s p μ) := by
  simp only [unlockHdl, epoch]
  split
  · rename_i q hq
    obtain ⟨hne, hb⟩ := nextWaiter_some hq
    exact .handOff hpc hh hne (by simpa [hne] using hb)
  · rename_i hn
    exact .leave hpc hh fun i hi => by simpa [hi] using nextWaiter_none hn hi

theorem next_does {s t : State nproc} (h : next s a = some t) : Does s a t := by
  cases a with
  | lock p μ =>
    simp only [next] at h
    split at h
    · rename_i hg
      cases h
      exact lockHdl_does hg.1 hg.2
    · cases h
  | recv p k =>
    simp only [next] at h
    split at h
    · rename_i μ m hpc hm
      split at h
      · rename_i hg
        cases h
        exact .recv hpc hm hg.1 hg.2
      · cases h
    · cases h
  | unlock p μ =>
    simp only [next] at h
    split at h
    · rename_i hg
      cases h
      exact unlockHdl_does hg.1 hg.2
    · cases h
  | send p =>
    simp only [next] at h
    split at h
    · rename_i μ q hpc
      cases h
      exact .send hpc
    · cases h

end ArmciMpi.Mutex
