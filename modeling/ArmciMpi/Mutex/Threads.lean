import ArmciMpi.Mutex.Safety

/-!
# Threads that share a mutex handle

At `MPI_THREAD_MULTIPLE` the calls `PARMCI_Lock` and `PARMCI_Unlock` of `mutex.c`
hold a pthread mutex of the process from beginning to end, also while the queueing
mutex waits for its notification. A process is therefore in one call at a time,
and its part of the queueing mutex is the one of `Queue.lean`.

Every thread runs a list of mutexes, each locked and unlocked before the next.
A thread that has to wait keeps the threads of its process from unlocking. Two
processes can block each other that way (`threads_deadlock`). No deadlock arises
if a thread only waits while no other thread of its process holds a mutex
(`threads_progress`).
-/

namespace ArmciMpi.Mutex

variable {nproc nthr : Nat}

inductive ThreadPc
  /-- Outside of the calls, with no mutex. -/
  | out
  /-- At `pthread_mutex_lock` of `PARMCI_Lock`. -/
  | enterLock
  /-- In `ARMCIX_Lock_hdl`, before the epoch. -/
  | lock
  /-- In `MPI_Recv`. -/
  | recv
  /-- At `pthread_mutex_unlock` of `PARMCI_Lock`. -/
  | exitLock
  /-- Outside of the calls, with the mutex. -/
  | inside
  /-- At `pthread_mutex_lock` of `PARMCI_Unlock`. -/
  | enterUnlock
  /-- In `ARMCIX_Unlock_hdl`, before the epoch. -/
  | unlock
  /-- In `MPI_Send`. -/
  | send
  /-- At `pthread_mutex_unlock` of `PARMCI_Unlock`. -/
  | exitUnlock
  deriving DecidableEq

def ThreadPc.owns : ThreadPc → Bool
  | .lock | .recv | .exitLock | .unlock | .send | .exitUnlock => true
  | _ => false

def ThreadPc.holds : ThreadPc → Bool
  | .exitLock | .inside | .enterUnlock | .unlock => true
  | _ => false

/-- A thread: its place and the mutexes it has still to lock, the current one first. -/
structure Thread (nproc : Nat) where
  pc : ThreadPc
  todo : List (MutexId nproc)

structure Threads (nproc nthr : Nat) where
  queue : State nproc
  /-- The thread that has `armci_mutex_hdl_mutex` of the process. -/
  owner : Fin nproc → Option (Fin nthr)
  thread : Fin nproc → Fin nthr → Thread nproc

abbrev Programs (nproc nthr : Nat) := Fin nproc → Fin nthr → List (MutexId nproc)

def Programs.Apart (prog : Programs nproc nthr) : Prop :=
  ∀ p i j μ, i ≠ j → μ ∈ prog p i → μ ∉ prog p j

namespace Threads

def init (prog : Programs nproc nthr) : Threads nproc nthr where
  queue := .init
  owner _ := none
  thread p i := ⟨.out, prog p i⟩

def setThread (s : Threads nproc nthr) (p : Fin nproc) (i : Fin nthr) (th : Thread nproc) :
    Threads nproc nthr :=
  { s with thread := Function.update s.thread p (Function.update (s.thread p) i th) }

def setOwner (s : Threads nproc nthr) (p : Fin nproc) (o : Option (Fin nthr)) :
    Threads nproc nthr :=
  { s with owner := Function.update s.owner p o }

def setQueue (s : Threads nproc nthr) (q : State nproc) : Threads nproc nthr := { s with queue := q }

section
variable (s : Threads nproc nthr) (p q : Fin nproc) (i j : Fin nthr)

@[simp, grind =] theorem setThread_thread : (s.setThread p i th).thread q j =
    if q = p ∧ j = i then th else s.thread q j := by
  by_cases h : q = p
  · subst h
    simp [setThread, Function.update_apply]
  · simp [setThread, h]
@[simp, grind =] theorem setThread_owner : (s.setThread p i th).owner q = s.owner q := rfl
@[simp, grind =] theorem setThread_queue : (s.setThread p i th).queue = s.queue := rfl
@[simp, grind =] theorem setOwner_thread : (s.setOwner p o).thread q j = s.thread q j := rfl
@[simp, grind =] theorem setOwner_owner :
    (s.setOwner p o).owner q = if q = p then o else s.owner q := Function.update_apply ..
@[simp, grind =] theorem setOwner_queue : (s.setOwner p o).queue = s.queue := rfl
theorem setOwner_self : s.setOwner p (s.owner p) = s := by simp [setOwner]
@[simp, grind =] theorem setQueue_thread : (s.setQueue u).thread q j = s.thread q j := rfl
@[simp, grind =] theorem setQueue_owner : (s.setQueue u).owner q = s.owner q := rfl
@[simp, grind =] theorem setQueue_queue : (s.setQueue u).queue = u := rfl

end

/-- A step of a thread; in `MPI_Recv` it takes the `k`-th message in flight. -/
structure Turn (nproc nthr : Nat) where
  proc : Fin nproc
  thr : Fin nthr
  k : Nat
  deriving DecidableEq

/-- `pthread_mutex_lock`. -/
def pthreadLock (s : Threads nproc nthr) (p : Fin nproc) (i : Fin nthr) (th : Thread nproc) :
    Option (Threads nproc nthr) :=
  if s.owner p = none then some ((s.setOwner p (some i)).setThread p i th) else none

/-- A step of the queueing mutex; `busy` is where the thread goes when the call is not
finished by it. -/
def queueStep (s : Threads nproc nthr) (p : Fin nproc) (i : Fin nthr) (a : Act nproc)
    (todo : List (MutexId nproc)) (busy done : ThreadPc) : Option (Threads nproc nthr) :=
  match Mutex.next s.queue a with
  | some u => some ((s.setQueue u).setThread p i ⟨if u.pc p = .idle then done else busy, todo⟩)
  | none => none

def next (s : Threads nproc nthr) (a : Turn nproc nthr) : Option (Threads nproc nthr) :=
  let p := a.proc
  let i := a.thr
  match (s.thread p i).todo with
  | [] => none
  | μ :: rest =>
    match (s.thread p i).pc with
    | .out => some (s.setThread p i ⟨.enterLock, μ :: rest⟩)
    | .enterLock => pthreadLock s p i ⟨.lock, μ :: rest⟩
    | .lock => queueStep s p i (.lock p μ) (μ :: rest) .recv .exitLock
    | .recv => queueStep s p i (.recv p a.k) (μ :: rest) .recv .exitLock
    | .exitLock => some ((s.setOwner p none).setThread p i ⟨.inside, μ :: rest⟩)
    | .inside => some (s.setThread p i ⟨.enterUnlock, μ :: rest⟩)
    | .enterUnlock => pthreadLock s p i ⟨.unlock, μ :: rest⟩
    | .unlock => queueStep s p i (.unlock p μ) (μ :: rest) .send .exitUnlock
    | .send => queueStep s p i (.send p) (μ :: rest) .send .exitUnlock
    | .exitUnlock => some ((s.setOwner p none).setThread p i ⟨.out, rest⟩)

def system (prog : Programs nproc nthr) : Lib.System (Threads nproc nthr) (Turn nproc nthr) where
  init s := s = init prog
  next := next

def Finished (s : Threads nproc nthr) (p : Fin nproc) (i : Fin nthr) : Prop :=
  (s.thread p i).todo = []

-- ------------------------------
-- What holds in every state
-- ------------------------------

def Stands (c : ThreadPc) (μ : MutexId nproc) (pc : Pc nproc) : Prop :=
  match c with
  | .recv => pc = .waiting μ
  | .send => ∃ w, pc = .sending μ w
  | _ => pc = .idle

structure Inv (prog : Programs nproc nthr) (s : Threads nproc nthr) : Prop where
  queue : Mutex.Inv s.queue
  todo : ∀ p i, ∀ μ ∈ (s.thread p i).todo, μ ∈ prog p i
  busy : ∀ p i, (s.thread p i).pc ≠ .out → (s.thread p i).todo ≠ []
  owner : ∀ p i, (s.thread p i).pc.owns = true ↔ s.owner p = some i
  idle : ∀ p, s.owner p = none → s.queue.pc p = .idle
  stands : ∀ p i μ rest, s.owner p = some i → (s.thread p i).todo = μ :: rest →
    Stands (s.thread p i).pc μ (s.queue.pc p)
  holds : ∀ p i μ rest, (s.thread p i).todo = μ :: rest → (s.thread p i).pc.holds = true →
    s.queue.held μ p = true
  holder : ∀ p μ, s.queue.held μ p = true →
    ∃ i, (s.thread p i).pc.holds = true ∧ (s.thread p i).todo.head? = some μ

section
variable {prog : Programs nproc nthr} {s t : Threads nproc nthr} {p : Fin nproc} {i : Fin nthr}
  {μ : MutexId nproc} {rest : List (MutexId nproc)} {u : State nproc} {c : ThreadPc}

theorem Inv.held_iff (hi : Inv prog s) (hap : prog.Apart) (h : (s.thread p i).todo = μ :: rest) :
    s.queue.held μ p = (s.thread p i).pc.holds := by
  cases hc : (s.thread p i).pc.holds with
  | true => exact hi.holds p i μ rest h hc
  | false =>
    cases hheld : s.queue.held μ p with
    | false => rfl
    | true =>
      obtain ⟨j, hj, hhead⟩ := hi.holder p μ hheld
      have hne : i ≠ j := by
        rintro rfl
        rw [hc] at hj
        cases hj
      have hmem : μ ∈ (s.thread p j).todo := List.mem_of_mem_head? hhead
      exact absurd (hi.todo p j μ hmem) (hap p i j μ hne (hi.todo p i μ (by simp [h])))

theorem Inv.own_step (hi : Inv prog s) {o : Option (Fin nthr)} {th : Thread nproc}
    (hsub : ∀ ν ∈ th.todo, ν ∈ prog p i) (hbusy : th.pc ≠ .out → th.todo ≠ [])
    (hown : o = s.owner p ∨ s.queue.pc p = .idle ∧
      (s.owner p = none ∧ o = some i ∨ s.owner p = some i ∧ o = none))
    (howns : th.pc.owns = true ↔ o = some i)
    (hstands : o = some i → ∀ ν, Stands th.pc ν (s.queue.pc p))
    (hholds : th.pc.holds = (s.thread p i).pc.holds)
    (htodo : th.pc.holds = true → th.todo = (s.thread p i).todo) :
    Inv prog ((s.setOwner p o).setThread p i th) := by
  obtain ⟨hqueue, hsubs, hbusys, howner, hidles, hstand, hhold, hholder⟩ := hi
  refine ⟨hqueue, fun q j => ?_, fun q j => ?_, fun q j => ?_, fun q => ?_, fun q j ν r => ?_,
    fun q j ν r => ?_, fun q ν hheld => ?_⟩
  · grind
  · grind
  · grind
  · grind
  · grind
  · grind
  · obtain ⟨j, hj⟩ := hholder q ν hheld
    exact ⟨j, by grind⟩

theorem Inv.queue_step (hi : Inv prog s) (hap : prog.Apart)
    (h : (s.thread p i).todo = μ :: rest) (hown : s.owner p = some i) (hu : Mutex.Inv u)
    (hc : c.owns = true)
    (hpc : ∀ r, r ≠ p → u.pc r = s.queue.pc r) (hstands : Stands c μ (u.pc p))
    (hheld : ∀ ν r, u.held ν r = if ν = μ ∧ r = p then c.holds else s.queue.held ν r) :
    Inv prog ((s.setQueue u).setThread p i ⟨c, μ :: rest⟩) := by
  have hother : ∀ j r, j ≠ i → (s.thread p j).todo ≠ μ :: r := fun j r hne hj =>
    hap p j i μ hne (hi.todo p j μ (by simp [hj])) (hi.todo p i μ (by simp [h]))
  obtain ⟨hqueue, hsubs, hbusys, howner, hidles, hstand, hhold, hholder⟩ := hi
  refine ⟨hu, fun q j => ?_, fun q j => ?_, fun q j => ?_, fun q => ?_, fun q j ν r => ?_,
    fun q j ν r => ?_, fun q ν hq => ?_⟩
  · grind
  · grind
  · grind
  · grind
  · grind
  · grind
  · by_cases hν : ν = μ ∧ q = p
    · exact ⟨i, by grind⟩
    · obtain ⟨j, hj⟩ := hholder q ν (by grind)
      exact ⟨j, by grind⟩

-- What the steps of the queueing mutex do to the place of the process and its mutexes.

theorem lock_step (hn : Mutex.next s.queue (.lock p μ) = some u) :
    (∀ r, r ≠ p → u.pc r = s.queue.pc r) ∧
      ∃ c, (if u.pc p = .idle then ThreadPc.exitLock else .recv) = c ∧ c.owns = true ∧
        Stands c μ (u.pc p) ∧
        ∀ ν r, u.held ν r = if ν = μ ∧ r = p then c.holds else s.queue.held ν r := by
  cases next_does hn with
  | wait hpc hh hne hb =>
    refine ⟨fun r hr => by simp [hr], .recv, by simp, rfl, by simp [Stands], fun ν r => ?_⟩
    simp only [State.setPc_held, State.setWindow_held]
    split
    · rename_i heq
      rw [heq.1, heq.2, hh]
      rfl
    · rfl
  | enter hpc hh hz =>
    exact ⟨fun r hr => by simp [hr], .exitLock, by simp, rfl, by simp [Stands],
      fun ν r => by simp [ThreadPc.holds]⟩

theorem recv_step (hw : s.queue.pc p = .waiting μ) (hn : Mutex.next s.queue (.recv p k) = some u) :
    (∀ r, r ≠ p → u.pc r = s.queue.pc r) ∧ u.pc p = .idle ∧
      ∀ ν r, u.held ν r = if ν = μ ∧ r = p then true else s.queue.held ν r := by
  cases next_does hn with
  | recv hpc hm hd ht =>
    rw [hw] at hpc
    obtain rfl := Pc.waiting.inj hpc
    exact ⟨fun r hr => by simp [hr], by simp, fun ν r => by simp⟩

theorem unlock_step (hn : Mutex.next s.queue (.unlock p μ) = some u) :
    (∀ r, r ≠ p → u.pc r = s.queue.pc r) ∧
      ∃ c, (if u.pc p = .idle then ThreadPc.exitUnlock else .send) = c ∧ c.owns = true ∧
        Stands c μ (u.pc p) ∧
        ∀ ν r, u.held ν r = if ν = μ ∧ r = p then c.holds else s.queue.held ν r := by
  cases next_does hn with
  | @handOff _ _ w hpc hh hne hb =>
    exact ⟨fun r hr => by simp [hr], .send, by simp, rfl, ⟨w, by simp⟩,
      fun ν r => by simp [ThreadPc.holds]⟩
  | leave hpc hh hz =>
    exact ⟨fun r hr => by simp, .exitUnlock, by simp [hpc], rfl, by simp [Stands, hpc],
      fun ν r => by simp [ThreadPc.holds]⟩

theorem send_step (hn : Mutex.next s.queue (.send p) = some u) :
    (∀ r, r ≠ p → u.pc r = s.queue.pc r) ∧ u.pc p = .idle ∧
      ∀ ν r, u.held ν r = s.queue.held ν r := by
  cases next_does hn with
  | send hpc => exact ⟨fun r hr => by simp [hr], by simp, fun ν r => by simp⟩

theorem Inv.step (hi : Inv prog s) (hap : prog.Apart) {a : Turn nproc nthr}
    (hn : next s a = some t) : Inv prog t := by
  obtain ⟨p, i, k⟩ := a
  simp only [next] at hn
  cases htodo : (s.thread p i).todo with
  | nil => simp [htodo] at hn
  | cons μ rest =>
    have hsub : ∀ ν ∈ μ :: rest, ν ∈ prog p i := htodo ▸ hi.todo p i
    have howner := hi.owner p i
    cases hpc : (s.thread p i).pc <;> simp only [htodo, hpc] at hn <;> rw [hpc] at howner
    case out | inside =>
      cases hn
      rw [← s.setOwner_self p]
      refine hi.own_step hsub (by simp) (.inl rfl) howner (fun ho => ?_) (by rw [hpc]; rfl)
        fun _ => htodo.symm
      exact absurd (howner.mpr ho) (by decide)
    case enterLock | enterUnlock =>
      rw [pthreadLock] at hn
      split at hn <;> cases hn
      rename_i hfree
      have hidle := hi.idle p hfree
      exact hi.own_step hsub (by simp) (.inr ⟨hidle, .inl ⟨hfree, rfl⟩⟩) (by simp [ThreadPc.owns])
        (fun _ _ => hidle) (by rw [hpc]; rfl) fun _ => htodo.symm
    case exitLock =>
      cases hn
      have hown := howner.mp rfl
      have hstands := hi.stands p i μ rest hown htodo
      rw [hpc] at hstands
      exact hi.own_step hsub (by simp) (.inr ⟨hstands, .inr ⟨hown, rfl⟩⟩) (by simp [ThreadPc.owns])
        (fun ho => by cases ho) (by rw [hpc]; rfl) fun _ => htodo.symm
    case exitUnlock =>
      cases hn
      have hown := howner.mp rfl
      have hstands := hi.stands p i μ rest hown htodo
      rw [hpc] at hstands
      exact hi.own_step (fun ν hν => hsub ν (List.mem_cons_of_mem μ hν)) (by simp)
        (.inr ⟨hstands, .inr ⟨hown, rfl⟩⟩) (by simp [ThreadPc.owns]) (fun ho => by cases ho)
        (by rw [hpc]; rfl) fun h => by cases h
    case lock =>
      rw [queueStep] at hn
      split at hn <;> cases hn
      rename_i u hu
      obtain ⟨hoth, c, hc, howns, hstands, hheld⟩ := lock_step hu
      rw [hc]
      exact hi.queue_step hap htodo (howner.mp rfl) (hi.queue.step (next_does hu)) howns hoth
        hstands hheld
    case recv =>
      rw [queueStep] at hn
      split at hn <;> cases hn
      rename_i u hu
      have hstands := hi.stands p i μ rest (howner.mp rfl) htodo
      rw [hpc] at hstands
      obtain ⟨hoth, hidle, hheld⟩ := recv_step hstands hu
      rw [if_pos hidle]
      exact hi.queue_step hap htodo (howner.mp rfl) (hi.queue.step (next_does hu)) rfl hoth
        hidle hheld
    case unlock =>
      rw [queueStep] at hn
      split at hn <;> cases hn
      rename_i u hu
      obtain ⟨hoth, c, hc, howns, hstands, hheld⟩ := unlock_step hu
      rw [hc]
      exact hi.queue_step hap htodo (howner.mp rfl) (hi.queue.step (next_does hu)) howns hoth
        hstands hheld
    case send =>
      rw [queueStep] at hn
      split at hn <;> cases hn
      rename_i u hu
      obtain ⟨hoth, hidle, hheld⟩ := send_step hu
      rw [if_pos hidle]
      refine hi.queue_step hap htodo (howner.mp rfl) (hi.queue.step (next_does hu)) rfl hoth
        hidle fun ν r => ?_
      rw [hheld]
      split
      · rename_i heq
        rw [heq.1, heq.2, hi.held_iff hap htodo, hpc]
        rfl
      · rfl

theorem inv_init (prog : Programs nproc nthr) : Inv prog (init prog) := by
  refine ⟨Mutex.inv_init, fun _ _ _ h => h, ?_, ?_, ?_, ?_, ?_, ?_⟩ <;>
    simp [init, ThreadPc.owns, ThreadPc.holds, State.init]

theorem reachable_inv (hap : prog.Apart) (h : (system prog).Reachable s) : Inv prog s :=
  h.invariant (fun _ hs => hs ▸ inv_init prog) fun _ _ _ _ hi hn => hi.step hap hn

-- ------------------------------
-- Progress
-- ------------------------------

/-- A thread that has to wait for a mutex does so while no thread of its process holds
one. -/
def WaitsAlone (s : Threads nproc nthr) (a : Turn nproc nthr) : Prop :=
  ∀ μ, (s.thread a.proc a.thr).pc = .lock → (s.thread a.proc a.thr).todo.head? = some μ →
    (∃ r, r ≠ a.proc ∧ s.queue.window μ r ≠ 0) → ∀ j, (s.thread a.proc j).pc.holds = false

def Alone (s : Threads nproc nthr) : Prop :=
  ∀ p i, (s.thread p i).pc = .recv → ∀ j, (s.thread p j).pc.holds = false

theorem Alone.set (hal : Alone s) (hi : Inv prog s) {th : Thread nproc}
    (hset : ∀ q j, t.thread q j = if q = p ∧ j = i then th else s.thread q j)
    (hrecv : th.pc = .recv → ∀ j, (s.thread p j).pc.holds = false)
    (hholds : th.pc.holds = true → (s.thread p i).pc.holds = true ∨ s.owner p = some i) :
    Alone t := by
  intro q j hj l
  by_contra hl
  rw [Bool.not_eq_false] at hl
  rw [hset] at hj hl
  have howner := hi.owner q j
  have hother := hal q j
  by_cases hji : q = p ∧ j = i
  · rw [if_pos hji] at hj
    by_cases hli : q = p ∧ l = i
    · rw [if_pos hli, hj] at hl
      cases hl
    · rw [if_neg hli, hji.1, hrecv hj l] at hl
      cases hl
  · rw [if_neg hji] at hj
    by_cases hli : q = p ∧ l = i
    · -- the mutex of `l` is new, but `j` has the pthread mutex
      obtain ⟨rfl, rfl⟩ := hli
      rw [if_pos ⟨rfl, rfl⟩] at hl
      rcases hholds hl with h | h
      · rw [hother hj l] at h
        cases h
      · rw [hj] at howner
        have hjl := (howner.mp rfl).symm.trans h
        exact hji ⟨rfl, Option.some.inj hjl⟩
    · rw [if_neg hli, hother hj l] at hl
      cases hl

theorem Inv.alone_step (hi : Inv prog s) (hal : Alone s) {a : Turn nproc nthr}
    (hok : WaitsAlone s a) (hn : next s a = some t) : Alone t := by
  obtain ⟨p, i, k⟩ := a
  simp only [next] at hn
  have howner := hi.owner p i
  cases htodo : (s.thread p i).todo with
  | nil => simp [htodo] at hn
  | cons μ rest =>
    cases hpc : (s.thread p i).pc <;> simp only [htodo, hpc] at hn <;> rw [hpc] at howner
    case out | inside | exitLock | exitUnlock =>
      cases hn
      refine hal.set hi (fun _ _ => setThread_thread ..) (fun h => by cases h) fun h => .inl ?_
      rw [hpc]
      exact h
    case enterLock | enterUnlock =>
      rw [pthreadLock] at hn
      split at hn <;> cases hn
      refine hal.set hi (fun _ _ => setThread_thread ..) (fun h => by cases h) fun h => .inl ?_
      rw [hpc]
      exact h
    case lock =>
      rw [queueStep] at hn
      split at hn <;> cases hn
      rename_i u hu
      refine hal.set hi (fun _ _ => setThread_thread ..) (fun h => ?_) fun _ => .inr (howner.mp rfl)
      refine hok μ hpc (by simp [htodo]) ?_
      cases next_does hu with
      | @wait _ _ r hpc hh hne hb => exact ⟨r, hne, hb⟩
      | enter hpc hh hz => simp at h
    case recv =>
      rw [queueStep] at hn
      split at hn <;> cases hn
      exact hal.set hi (fun _ _ => setThread_thread ..) (fun _ => hal p i hpc)
        fun _ => .inr (howner.mp rfl)
    case unlock | send =>
      rw [queueStep] at hn
      split at hn <;> cases hn
      refine hal.set hi (fun _ _ => setThread_thread ..) (fun h => ?_) fun _ => .inr (howner.mp rfl)
      split at h <;> cases h

theorem alone_init (prog : Programs nproc nthr) : Alone (init prog) := fun _ _ h => by cases h

theorem alone_of_restrict (hap : prog.Apart) (h : ((system prog).restrict WaitsAlone).Reachable s) :
    Alone s := by
  refine h.invariant (fun _ hs => hs ▸ alone_init prog) fun s a t hr hal hn => ?_
  obtain ⟨hok, hn⟩ := Lib.System.restrict_next.mp hn
  exact (reachable_inv hap hr.of_restrict).alone_step hal hok hn

def CanStep (s : Threads nproc nthr) : Prop := ∃ a t, next s a = some t

theorem not_canStep (h : ∀ p i k, next s ⟨p, i, k⟩ = none) : ¬ CanStep s := by
  rintro ⟨⟨p, i, k⟩, t, ht⟩
  rw [h] at ht
  cases ht

theorem Inv.owner_steps (hi : Inv prog s) (hap : prog.Apart) (hown : s.owner p = some i)
    (hne : (s.thread p i).pc ≠ .recv) : CanStep s := by
  have howns := (hi.owner p i).mpr hown
  have hout : (s.thread p i).pc ≠ .out := fun h => by simp [h, ThreadPc.owns] at howns
  obtain ⟨μ, rest, htodo⟩ := List.exists_cons_of_ne_nil (hi.busy p i hout)
  have hstands := hi.stands p i μ rest hown htodo
  have hheld := hi.held_iff hap htodo
  refine ⟨⟨p, i, 0⟩, ?_⟩
  cases hpc : (s.thread p i).pc <;> simp only [next, htodo, hpc] <;> rw [hpc] at hstands hheld howns
  case out | enterLock | inside | enterUnlock => cases howns
  case recv => exact absurd hpc hne
  case exitLock | exitUnlock => exact ⟨_, rfl⟩
  case lock =>
    have hstands : s.queue.pc p = .idle := hstands
    rw [queueStep, Mutex.next, if_pos ⟨hstands, hheld⟩]
    exact ⟨_, rfl⟩
  case unlock =>
    have hstands : s.queue.pc p = .idle := hstands
    rw [queueStep, Mutex.next, if_pos ⟨hstands, hheld⟩]
    exact ⟨_, rfl⟩
  case send =>
    obtain ⟨w, hw⟩ := hstands
    rw [queueStep, Mutex.next, hw]
    exact ⟨_, rfl⟩

theorem Inv.caller (hi : Inv prog s) (h : s.queue.pc p ≠ .idle) : ∃ i μ rest, s.owner p = some i ∧
    (s.thread p i).todo = μ :: rest ∧ Stands (s.thread p i).pc μ (s.queue.pc p) := by
  cases hown : s.owner p with
  | none => exact absurd (hi.idle p hown) h
  | some i =>
    have howns := (hi.owner p i).mpr hown
    have hout : (s.thread p i).pc ≠ .out := fun h => by simp [h, ThreadPc.owns] at howns
    obtain ⟨μ, rest, htodo⟩ := List.exists_cons_of_ne_nil (hi.busy p i hout)
    exact ⟨i, μ, rest, rfl, htodo, hi.stands p i μ rest hown htodo⟩

theorem token_cases {u : State nproc} (hu : Mutex.Inv u) (hb : u.Busy μ) :
    (∃ r, u.held μ r = true) ∨ (∃ r w, u.pc r = .sending μ w) ∨
      ∃ (k : Nat) (m : Msg nproc), u.msgs[k]? = some m ∧ m.sentFor = μ := by
  have htok := hu.busy μ hb
  by_contra hnone
  rw [not_or, not_or] at hnone
  obtain ⟨hheld, hsend, hmsg⟩ := hnone
  have h₁ : u.holders μ = 0 := Lib.count_eq_zero.mpr fun r => by
    simpa using fun h => hheld ⟨r, h⟩
  have h₂ : u.releasers μ = 0 := Lib.count_eq_zero.mpr fun r => by
    cases hpc : u.pc r with
    | idle | waiting ν => rfl
    | sending ν w =>
      refine decide_eq_false fun heq => hsend ⟨r, w, ?_⟩
      rw [hpc, heq]
  have h₃ : u.notifications μ = 0 := List.countP_eq_zero.mpr fun m hm heq => by
    obtain ⟨k, hk⟩ := List.mem_iff_getElem?.mp hm
    exact hmsg ⟨k, m, hk, of_decide_eq_true heq⟩
  rw [State.tokens, h₁, h₂, h₃] at htok
  cases htok

theorem Inv.recv_steps (hi : Inv prog s) {k : Nat} {m : Msg nproc}
    (hm : s.queue.msgs[k]? = some m) : CanStep s := by
  obtain ⟨hwait, htag⟩ := hi.queue.msg m (List.mem_of_getElem? hm)
  obtain ⟨i, μ, rest, hown, htodo, hstands⟩ := hi.caller (p := m.dst) (by simp [hwait])
  rw [hwait] at hstands
  have hrecv : (s.thread m.dst i).pc = .recv ∧ m.sentFor = μ := by
    cases hpc : (s.thread m.dst i).pc <;> rw [hpc] at hstands
    case recv => exact ⟨rfl, Pc.waiting.inj hstands⟩
    case send => exact absurd hstands.choose_spec (by simp)
    all_goals cases hstands
  refine ⟨⟨m.dst, i, k⟩, ?_⟩
  simp only [next, htodo, hrecv.1, queueStep, Mutex.next, hwait, hm, htag, and_self, if_true]
  exact ⟨_, rfl⟩

theorem Inv.waiting_steps (hi : Inv prog s) (hap : prog.Apart) (hal : Alone s)
    (h : (s.thread p i).pc = .recv) : CanStep s := by
  have hown := (hi.owner p i).mp (by rw [h]; rfl)
  obtain ⟨μ, rest, htodo⟩ := List.exists_cons_of_ne_nil (hi.busy p i (by simp [h]))
  have hstands := hi.stands p i μ rest hown htodo
  rw [h] at hstands
  rcases token_cases hi.queue (hi.queue.busy_iff.mpr ⟨p, .inr hstands⟩) with
    ⟨r, hr⟩ | ⟨r, w, hr⟩ | ⟨k, m, hm, -⟩
  · -- the thread that holds the mutex, or the one it waits for at its pthread mutex
    obtain ⟨j, hj, hhead⟩ := hi.holder r μ hr
    obtain ⟨ν, rest', hrest⟩ : ∃ ν rest', (s.thread r j).todo = ν :: rest' := by
      cases hl : (s.thread r j).todo with
      | nil => simp [hl] at hhead
      | cons ν rest' => exact ⟨ν, rest', rfl⟩
    by_cases howns : (s.thread r j).pc.owns = true
    · refine hi.owner_steps hap ((hi.owner r j).mp howns) fun hrecv => ?_
      rw [hrecv] at hj
      cases hj
    · cases hpc : (s.thread r j).pc <;> rw [hpc] at hj howns
      case inside =>
        refine ⟨⟨r, j, 0⟩, ?_⟩
        simp only [next, hrest, hpc]
        exact ⟨_, rfl⟩
      case enterUnlock =>
        cases hfree : s.owner r with
        | none =>
          refine ⟨⟨r, j, 0⟩, ?_⟩
          simp only [next, hrest, hpc, pthreadLock, hfree, if_true]
          exact ⟨_, rfl⟩
        | some l =>
          refine hi.owner_steps hap hfree fun hrecv => ?_
          have := hal r l hrecv j
          rw [hpc] at this
          cases this
      all_goals first | exact absurd rfl howns | cases hj
  · obtain ⟨j, ν, rest', hown', -, hstands'⟩ := hi.caller (p := r) (by simp [hr])
    refine hi.owner_steps hap hown' fun hrecv => ?_
    rw [hrecv, hr] at hstands'
    cases hstands'
  · exact hi.recv_steps hm

/-- In every run in which threads only wait while no thread of their process holds a
mutex, some thread can take a step as long as a thread has not finished. -/
theorem threads_progress (hap : prog.Apart)
    (h : ((system prog).restrict WaitsAlone).Reachable s) (hun : ¬ s.Finished p i) : CanStep s := by
  have hi := reachable_inv hap h.of_restrict
  have hal := alone_of_restrict hap h
  obtain ⟨μ, rest, htodo⟩ := List.exists_cons_of_ne_nil hun
  by_cases hrecv : ∃ q j, (s.thread q j).pc = .recv
  · obtain ⟨q, j, hj⟩ := hrecv
    exact hi.waiting_steps hap hal hj
  · cases hown : s.owner p with
    | some j => exact hi.owner_steps hap hown fun hj => hrecv ⟨p, j, hj⟩
    | none =>
      -- nobody is in a call, so the thread can start or finish one
      have howns := hi.owner p i
      rw [hown] at howns
      refine ⟨⟨p, i, 0⟩, ?_⟩
      cases hpc : (s.thread p i).pc <;>
        simp only [next, htodo, hpc, pthreadLock, hown, if_true] <;> rw [hpc] at howns
      case out | enterLock | inside | enterUnlock => exact ⟨_, rfl⟩
      all_goals exact absurd (howns.mp rfl) (by simp)

instance (s : Threads nproc nthr) (a : Turn nproc nthr) : Decidable (WaitsAlone s a) :=
  decidable_of_iff ((s.thread a.proc a.thr).pc = .lock →
      ∀ μ ∈ (s.thread a.proc a.thr).todo.head?, (∃ r, r ≠ a.proc ∧ s.queue.window μ r ≠ 0) →
        ∀ j, (s.thread a.proc j).pc.holds = false)
    ⟨fun h μ hpc hμ => h hpc μ hμ, fun h hpc μ hμ => h μ hpc hμ⟩

end

def crossed : Programs 2 2 := fun p i => if p.val = i.val then [⟨0, 0⟩] else [⟨0, 1⟩]

theorem crossed_apart : crossed.Apart := by
  have hap : ∀ p i j, i ≠ j → ∀ μ ∈ crossed p i, μ ∉ crossed p j := by decide
  exact fun p i j μ hne hmem => hap p i j hne μ hmem

/-- Both threads of process 0 hold a mutex, one of process 1 waits and keeps the other out. -/
def contendedTurns : List (Turn 2 2) :=
  List.replicate 4 ⟨0, 0, 0⟩ ++ List.replicate 4 ⟨0, 1, 0⟩ ++ List.replicate 3 ⟨1, 1, 0⟩ ++
    [⟨1, 0, 0⟩]

theorem threads_progress_contended : ∃ s,
    (system crossed).runOk WaitsAlone (init crossed) contendedTurns = some s ∧
    (∀ i, (s.thread 0 i).pc = .inside) ∧ (s.thread 1 1).pc = .recv ∧
    (s.thread 1 0).pc = .enterLock ∧ CanStep s := by
  have hr : (system crossed).runOk WaitsAlone (init crossed) contendedTurns = some _ := rfl
  exact ⟨_, hr, Fin.forall_fin_two.mpr ⟨rfl, rfl⟩, rfl, rfl, threads_progress (p := 1) (i := 0)
    crossed_apart ((Lib.System.Reachable.init rfl).runOk _ hr) (List.cons_ne_nil _ _)⟩

/-- The first threads lock a mutex each, the second threads wait for the mutex of the
other process, and the first threads call unlock. -/
def crossedTurns : List (Turn 2 2) :=
  List.replicate 4 ⟨0, 0, 0⟩ ++ List.replicate 4 ⟨1, 0, 0⟩ ++ List.replicate 3 ⟨0, 1, 0⟩ ++
    List.replicate 3 ⟨1, 1, 0⟩ ++ [⟨0, 0, 0⟩, ⟨1, 0, 0⟩]

/-- Nobody can take a step after that. -/
theorem threads_deadlock : crossed.Apart ∧ ∃ s, (system crossed).Reachable s ∧
    (∀ p i, ¬ s.Finished p i) ∧ ¬ CanStep s := by
  refine ⟨crossed_apart, ?_⟩
  have hr : (system crossed).run (init crossed) crossedTurns = some _ := rfl
  refine ⟨_, (Lib.System.Reachable.init rfl).run hr, ?_, ?_⟩
  · exact Fin.forall_fin_two.mpr ⟨Fin.forall_fin_two.mpr ⟨List.cons_ne_nil _ _, List.cons_ne_nil _ _⟩,
      Fin.forall_fin_two.mpr ⟨List.cons_ne_nil _ _, List.cons_ne_nil _ _⟩⟩
  · exact not_canStep (Fin.forall_fin_two.mpr
      ⟨Fin.forall_fin_two.mpr ⟨fun _ => rfl, fun _ => rfl⟩,
        Fin.forall_fin_two.mpr ⟨fun _ => rfl, fun _ => rfl⟩⟩)

end Threads

end ArmciMpi.Mutex
