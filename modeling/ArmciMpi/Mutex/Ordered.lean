import ArmciMpi.Mutex.Threads
import Mathlib.Algebra.BigOperators.Ring.Finset
import Mathlib.Data.Finset.Max
import Mathlib.Data.Finset.Option

/-!
# Nested locking in one order

Processes with one thread each that hold several mutexes of a handle at a time. A
process runs a list of `PARMCI_Lock` and `PARMCI_Unlock` calls; both block until they
are done. If all processes lock the mutexes in one order and unlock what they hold,
then no run can get stuck: among the processes that wait, the one that waits for the
highest mutex waits for a process that does not wait. Each call takes at most two
steps, so every run ends, and it ends with all calls done, every byte of every window
zero and no notification in flight (`ordered_locking_finishes`).
-/

namespace ArmciMpi.Mutex.Ordered

variable {nproc : Nat}

inductive Instr (nproc : Nat)
  | lock (μ : MutexId nproc)
  | unlock (μ : MutexId nproc)

/-- The calls of each process that are not done, the current one first. -/
structure State (nproc : Nat) where
  queue : Mutex.State nproc
  todo : Fin nproc → List (Instr nproc)

abbrev Programs (nproc : Nat) := Fin nproc → List (Instr nproc)

def init (prog : Programs nproc) : State nproc := ⟨.init, prog⟩

/-- A step of a process; in `MPI_Recv` it takes the `k`-th message in flight. -/
structure Turn (nproc : Nat) where
  proc : Fin nproc
  k : Nat

def action (p : Fin nproc) (k : Nat) : Pc nproc → Instr nproc → Act nproc
  | .waiting _, _ => .recv p k
  | .sending _ _, _ => .send p
  | .idle, .lock μ => .lock p μ
  | .idle, .unlock μ => .unlock p μ

def actor : Act nproc → Fin nproc
  | .lock p _ | .recv p _ | .unlock p _ | .send p => p

def next (s : State nproc) (a : Turn nproc) : Option (State nproc) :=
  match s.todo a.proc with
  | [] => none
  | c :: rest =>
    match Mutex.next s.queue (action a.proc a.k (s.queue.pc a.proc) c) with
    | none => none
    | some u => some ⟨u, Function.update s.todo a.proc
        (if u.pc a.proc = .idle then rest else c :: rest)⟩

def system (prog : Programs nproc) : Lib.System (State nproc) (Turn nproc) where
  init s := s = init prog
  next := next

/-- The calls of a process that holds the mutexes in `h`: it locks them in the order of
`rank`, unlocks only what it holds, and holds nothing in the end. -/
def InOrder {α : Type} [LT α] (rank : MutexId nproc → α) :
    (MutexId nproc → Bool) → List (Instr nproc) → Prop
  | h, [] => ∀ μ, h μ = false
  | h, .lock μ :: rest =>
    (∀ ν, h ν = true → rank ν < rank μ) ∧ InOrder rank (Function.update h μ true) rest
  | h, .unlock μ :: rest => h μ = true ∧ InOrder rank (Function.update h μ false) rest

-- ------------------------------
-- Where a process stands
-- ------------------------------

section
variable {α : Type} [LinearOrder α] {rank : MutexId nproc → α} {prog : Programs nproc}
  {s t : State nproc} {p : Fin nproc}

def State.holding (s : State nproc) (p : Fin nproc) (μ : MutexId nproc) : Bool := s.queue.held μ p

/-- The calls that are left fit the place of the process in the queueing mutex. -/
def Stands (rank : MutexId nproc → α) (h : MutexId nproc → Bool) (todo : List (Instr nproc)) :
    Pc nproc → Prop
  | .idle => InOrder rank h todo
  | .waiting μ => ∃ rest, todo = .lock μ :: rest ∧ InOrder rank h (.lock μ :: rest)
  | .sending μ _ => ∃ rest, todo = .unlock μ :: rest ∧ InOrder rank h rest

structure Inv (rank : MutexId nproc → α) (s : State nproc) : Prop where
  queue : Mutex.Inv s.queue
  stands : ∀ p, Stands rank (s.holding p) (s.todo p) (s.queue.pc p)

/-- What a step of a process does: it is the only one whose place, mutexes and calls
change. -/
theorem next_cases (h : next s ⟨p, k⟩ = some t) : ∃ c rest, s.todo p = c :: rest ∧
    Mutex.next s.queue (action p k (s.queue.pc p) c) = some t.queue ∧
    t.todo = Function.update s.todo p (if t.queue.pc p = .idle then rest else c :: rest) := by
  simp only [next] at h
  split at h
  · cases h
  · rename_i c rest htodo
    split at h
    · cases h
    · rename_i u hu
      cases h
      exact ⟨c, rest, htodo, hu, rfl⟩

theorem does_other {u v : Mutex.State nproc} (h : Does u a v) {q : Fin nproc}
    (hq : q ≠ actor a) : v.pc q = u.pc q ∧ ∀ μ, v.held μ q = u.held μ q := by
  cases h <;> replace hq := hq <;> simp only [actor] at hq <;> simp [hq]

theorem actor_action (p : Fin nproc) (k : Nat) (pc : Pc nproc) (c : Instr nproc) :
    actor (action p k pc c) = p := by
  cases pc <;> cases c <;> rfl

theorem Inv.stands_step (hi : Inv rank s) (htodo : s.todo p = c :: rest)
    (hn : Mutex.next s.queue (action p k (s.queue.pc p) c) = some t.queue)
    (ht : t.todo p = if t.queue.pc p = .idle then rest else c :: rest) :
    Stands rank (t.holding p) (t.todo p) (t.queue.pc p) := by
  have hst := hi.stands p
  rw [htodo] at hst
  have hdoes := next_does hn
  cases hpc : s.queue.pc p with
  | idle =>
    rw [hpc] at hst hdoes
    cases c with
    | lock μ =>
      generalize hu : t.queue = u at hdoes ht
      cases hdoes with
      | wait _ _ _ _ =>
        have hheld : t.holding p = s.holding p := funext fun ν => by simp [State.holding, hu]
        rw [hheld]
        simp only [State.setPc_pc, if_true, reduceCtorEq, if_false] at ht ⊢
        exact ⟨rest, ht, hst⟩
      | enter _ _ _ =>
        have hheld : t.holding p = Function.update (s.holding p) μ true := funext fun ν => by
          simp [State.holding, hu, Function.update_apply]
        rw [hheld]
        simp only [State.acquire_pc, if_true] at ht ⊢
        rw [ht]
        exact hst.2
    | unlock μ =>
      generalize hu : t.queue = u at hdoes ht
      cases hdoes with
      | handOff _ _ _ _ =>
        have hheld : t.holding p = Function.update (s.holding p) μ false := funext fun ν => by
          simp [State.holding, hu, Function.update_apply]
        rw [hheld]
        simp only [State.setPc_pc, if_true, reduceCtorEq, if_false] at ht ⊢
        exact ⟨rest, ht, hst.2⟩
      | leave _ _ _ =>
        have hheld : t.holding p = Function.update (s.holding p) μ false := funext fun ν => by
          simp [State.holding, hu, Function.update_apply]
        rw [hheld]
        simp only [State.release_pc, State.setWindow_pc, hpc, if_true] at ht ⊢
        rw [ht]
        exact hst.2
  | waiting μ =>
    rw [hpc] at hst hdoes
    obtain ⟨r, heq, hst⟩ := hst
    cases heq
    generalize hu : t.queue = u at hdoes ht
    cases hdoes with
    | recv hpc' _ _ _ =>
      rw [hpc] at hpc'
      cases hpc'
      have hheld : t.holding p = Function.update (s.holding p) μ true := funext fun ν => by
        simp [State.holding, hu, Function.update_apply]
      rw [hheld]
      simp only [State.acquire_pc, if_true] at ht ⊢
      rw [ht]
      exact hst.2
  | sending μ q =>
    rw [hpc] at hst hdoes
    obtain ⟨r, heq, hst⟩ := hst
    cases heq
    generalize hu : t.queue = u at hdoes ht
    cases hdoes with
    | send hpc' =>
      have hheld : t.holding p = s.holding p := funext fun ν => by simp [State.holding, hu]
      rw [hheld]
      simp only [State.setPc_pc, if_true] at ht ⊢
      rw [ht]
      exact hst

theorem Inv.step (hi : Inv rank s) (hn : next s a = some t) : Inv rank t := by
  obtain ⟨p, k⟩ := a
  obtain ⟨c, rest, htodo, hq, ht⟩ := next_cases hn
  refine ⟨hi.queue.step (next_does hq), fun q => ?_⟩
  by_cases hqp : q = p
  · subst hqp
    exact hi.stands_step htodo hq (by rw [ht, Function.update_self])
  · obtain ⟨hpc, hheld⟩ := does_other (next_does hq) (by rwa [actor_action])
    have hholding : t.holding q = s.holding q := funext fun μ => hheld μ
    rw [hholding, hpc, ht, Function.update_of_ne hqp]
    exact hi.stands q

theorem inv_init (hprog : ∀ p, InOrder rank (fun _ => false) (prog p)) : Inv rank (init prog) :=
  ⟨Mutex.inv_init, fun p => hprog p⟩

-- ------------------------------
-- Progress
-- ------------------------------

theorem Inv.steps (hi : Inv rank s) (htodo : s.todo p ≠ [])
    (hwait : ∀ μ, s.queue.pc p ≠ .waiting μ) : ∃ a t, next s a = some t := by
  obtain ⟨c, rest, hc⟩ := List.exists_cons_of_ne_nil htodo
  have hst := hi.stands p
  rw [hc] at hst
  have hnext : ∃ u, Mutex.next s.queue (action p 0 (s.queue.pc p) c) = some u := by
    cases hpc : s.queue.pc p with
    | idle =>
      rw [hpc] at hst
      cases c with
      | lock μ =>
        have hnot : s.queue.held μ p = false := by
          by_contra hheld
          exact lt_irrefl _ (hst.1 μ (by simpa [State.holding] using hheld))
        exact ⟨_, if_pos ⟨hpc, hnot⟩⟩
      | unlock μ => exact ⟨_, if_pos ⟨hpc, hst.1⟩⟩
    | waiting μ => exact absurd hpc (hwait μ)
    | sending μ q =>
      simp only [action, Mutex.next, hpc]
      exact ⟨_, rfl⟩
  obtain ⟨u, hu⟩ := hnext
  refine ⟨⟨p, 0⟩, ?_⟩
  simp only [next, hc, hu]
  exact ⟨_, rfl⟩

theorem Inv.recv_steps (hi : Inv rank s) {k : Nat} {m : Msg nproc}
    (hm : s.queue.msgs[k]? = some m) : ∃ a t, next s a = some t := by
  obtain ⟨hwait, htag⟩ := hi.queue.msg m (List.mem_of_getElem? hm)
  have hst := hi.stands m.dst
  rw [hwait] at hst
  obtain ⟨rest, hc, -⟩ := hst
  refine ⟨⟨m.dst, k⟩, ?_⟩
  simp only [next, hc, action, hwait, Mutex.next, hm, htag, and_self, if_true]
  exact ⟨_, rfl⟩

/-- A process that holds a mutex has calls left, and if it waits, then for a higher one. -/
theorem Inv.holder (hi : Inv rank s) (hh : s.queue.held μ p = true) :
    s.todo p ≠ [] ∧ ∀ ν, s.queue.pc p = .waiting ν → rank μ < rank ν := by
  have hst := hi.stands p
  refine ⟨fun hnil => ?_, fun ν hν => ?_⟩
  · rw [hnil] at hst
    cases hpc : s.queue.pc p with
    | idle =>
      rw [hpc] at hst
      have hno := hst μ
      rw [State.holding, hh] at hno
      cases hno
    | waiting ν =>
      rw [hpc] at hst
      obtain ⟨_, heq, -⟩ := hst
      cases heq
    | sending ν q =>
      rw [hpc] at hst
      obtain ⟨_, heq, -⟩ := hst
      cases heq
  · rw [hν] at hst
    obtain ⟨rest, -, hlt, -⟩ := hst
    exact hlt μ hh

def awaited : Pc nproc → Option (MutexId nproc)
  | .waiting μ => some μ
  | _ => none

theorem awaited_eq {c : Pc nproc} : awaited c = some μ ↔ c = .waiting μ := by
  cases c <;> simp [awaited]

theorem Inv.progress (hi : Inv rank s) (htodo : s.todo p ≠ []) : ∃ a t, next s a = some t := by
  by_contra hstuck
  -- then every process with calls left waits
  have hwait : ∀ q, s.todo q ≠ [] → ∃ μ, s.queue.pc q = .waiting μ := fun q hq => by
    by_contra hno
    exact hstuck (hi.steps hq fun μ hμ => hno ⟨μ, hμ⟩)
  have hmem : ∀ μ, μ ∈ Finset.eraseNone (Finset.univ.image fun q => awaited (s.queue.pc q)) ↔
      ∃ q, s.queue.pc q = .waiting μ := fun μ => by
    simp [Finset.mem_eraseNone, awaited_eq]
  obtain ⟨μ₀, hμ₀⟩ := hwait p htodo
  obtain ⟨μ, hμ, hmax⟩ := Finset.exists_max_image _ rank ⟨μ₀, (hmem μ₀).mpr ⟨p, hμ₀⟩⟩
  -- the highest mutex that is waited for
  obtain ⟨q, hq⟩ := (hmem μ).mp hμ
  rcases Threads.token_cases hi.queue (hi.queue.busy_iff.mpr ⟨q, .inr hq⟩) with
    ⟨r, hr⟩ | ⟨r, w, hr⟩ | ⟨k, m, hm, -⟩
  · obtain ⟨hleft, hup⟩ := hi.holder hr
    obtain ⟨ν, hν⟩ := hwait r hleft
    exact absurd (hup ν hν) (not_lt.mpr (hmax ν ((hmem ν).mpr ⟨r, hν⟩)))
  · refine hstuck (hi.steps (p := r) ?_ fun ν hν => ?_)
    · have hst := hi.stands r
      rw [hr] at hst
      obtain ⟨rest, hc, -⟩ := hst
      simp [hc]
    · rw [hr] at hν
      cases hν
  · exact hstuck (hi.recv_steps hm)

-- ------------------------------
-- Termination
-- ------------------------------

/-- The steps a process has still to take, at most: two for each call, and one of them is
done when the process waits or sends. -/
def left (s : State nproc) (p : Fin nproc) : Nat :=
  2 * (s.todo p).length - if s.queue.pc p = .idle then 0 else 1

theorem left_step (hn : next s ⟨p, k⟩ = some t) :
    left t p + 1 ≤ left s p ∧ ∀ q, q ≠ p → left t q = left s q := by
  obtain ⟨c, rest, htodo, hq, ht⟩ := next_cases hn
  have hdoes := next_does hq
  refine ⟨?_, fun q hqp => ?_⟩
  · have htp : t.todo p = if t.queue.pc p = .idle then rest else c :: rest := by
      rw [ht, Function.update_self]
    unfold left
    rw [htp, htodo]
    by_cases hidle : t.queue.pc p = .idle
    · simp only [hidle, if_true, List.length_cons]
      split <;> omega
    · -- a call that is not done was entered in this step
      have hstart : s.queue.pc p = .idle := by
        by_contra hne
        generalize hu : t.queue = u at hdoes hidle
        cases hpc : s.queue.pc p with
        | idle => exact hne hpc
        | waiting μ =>
          rw [hpc] at hdoes
          cases hdoes
          simp at hidle
        | sending μ q =>
          rw [hpc] at hdoes
          cases hdoes
          simp at hidle
      simp only [hidle, hstart, if_true, if_false, List.length_cons]
      omega
  · obtain ⟨hpc, -⟩ := does_other hdoes (by rwa [actor_action])
    rw [left, left, hpc, ht, Function.update_of_ne hqp]

theorem run_length (hr : (system prog).run s as = some t) :
    as.length + ∑ p, left t p ≤ ∑ p, left s p := by
  induction as generalizing s with
  | nil =>
    cases hr
    simp
  | cons a as ih =>
    obtain ⟨u, hu, hr⟩ := Option.bind_eq_some_iff.mp hr
    obtain ⟨hlt, hoth⟩ := left_step (p := a.proc) (k := a.k) hu
    have hsum : ∑ p, left u p < ∑ p, left s p := by
      refine Finset.sum_lt_sum (fun q _ => ?_) ⟨a.proc, Finset.mem_univ _, hlt⟩
      by_cases hq : q = a.proc
      · rw [hq]
        exact Nat.le_of_succ_le hlt
      · exact (hoth q hq).le
    have := ih hr
    simp only [List.length_cons]
    omega

/-- Processes that lock in one order never get stuck: every run is finite, and one that
cannot be continued has done all calls and leaves the windows zero and nothing in
flight. -/
theorem ordered_locking_finishes (hprog : ∀ p, InOrder rank (fun _ => false) (prog p))
    (hr : (system prog).run (init prog) as = some s) :
    as.length ≤ 2 * ∑ p, (prog p).length ∧
    ((∀ a, next s a = none) → (∀ p, s.todo p = []) ∧ (∀ μ p, s.queue.window μ p = 0) ∧
      s.queue.msgs = []) := by
  have hi : Inv rank s := by
    have hreach : (system prog).Reachable s := .run (.init rfl) hr
    exact hreach.invariant (fun _ h => h ▸ inv_init hprog) fun _ _ _ _ hi hn => hi.step hn
  refine ⟨?_, fun hstop => ?_⟩
  · have hlen := run_length hr
    have hinit : ∑ p, left (init prog) p = 2 * ∑ p, (prog p).length := by
      rw [Finset.mul_sum]
      exact Finset.sum_congr rfl fun p _ => by simp [left, init, State.init]
    omega
  · have hdone : ∀ p, s.todo p = [] := fun p => by
      by_contra hne
      obtain ⟨a, t, hn⟩ := hi.progress hne
      rw [hstop a] at hn
      cases hn
    have hidle : ∀ p, s.queue.pc p = .idle ∧ ∀ μ, s.queue.held μ p = false := fun p => by
      have hst := hi.stands p
      rw [hdone p] at hst
      cases hpc : s.queue.pc p with
      | idle =>
        rw [hpc] at hst
        exact ⟨rfl, hst⟩
      | waiting μ | sending μ q =>
        rw [hpc] at hst
        obtain ⟨_, heq, -⟩ := hst
        cases heq
    refine ⟨hdone, fun μ p => hi.queue.byte_zero μ p fun hone => ?_, ?_⟩
    · rcases (hi.queue.byte_iff μ p).mp hone with hheld | hwait
      · rw [(hidle p).2 μ] at hheld
        cases hheld
      · rw [(hidle p).1] at hwait
        cases hwait
    · rw [List.eq_nil_iff_forall_not_mem]
      intro m hm
      have hwait := (hi.queue.msg m hm).1
      rw [(hidle m.dst).1] at hwait
      cases hwait

end

def nested (h k : Fin 2) : Programs 2 := fun _ =>
  [.lock ⟨0, h⟩, .lock ⟨0, k⟩, .unlock ⟨0, k⟩, .unlock ⟨0, h⟩]

theorem nested_inOrder {h k : Fin 2} (hlt : h < k) (p : Fin 2) :
    InOrder (fun μ => μ.host) (fun _ => false) (nested h k p) := by
  have hne : k ≠ h := ne_of_gt hlt
  simp only [nested, InOrder, Function.update_apply]
  refine ⟨by simp, fun ν hν => ?_, by simp, by simp [hne.symm], fun μ => ?_⟩
  · obtain rfl : ν = ⟨0, h⟩ := by simpa using hν
    exact hlt
  · split
    · rfl
    · split
      · rfl
      · simp_all

theorem ordered_locking_finishes_nested : ∃ s, (system (nested 0 1)).run (init (nested 0 1))
      [⟨0, 0⟩, ⟨1, 0⟩, ⟨0, 0⟩, ⟨0, 0⟩, ⟨0, 0⟩, ⟨0, 0⟩, ⟨1, 0⟩, ⟨1, 0⟩, ⟨1, 0⟩, ⟨1, 0⟩] = some s ∧
    (∀ p, s.todo p = []) ∧ (∀ μ p, s.queue.window μ p = 0) ∧ s.queue.msgs = [] := by
  have hrun : ∃ s, (system (nested 0 1)).run (init (nested 0 1))
      [⟨0, 0⟩, ⟨1, 0⟩, ⟨0, 0⟩, ⟨0, 0⟩, ⟨0, 0⟩, ⟨0, 0⟩, ⟨1, 0⟩, ⟨1, 0⟩, ⟨1, 0⟩, ⟨1, 0⟩] = some s ∧
      s.todo 0 = [] ∧ s.todo 1 = [] := ⟨_, rfl, rfl, rfl⟩
  obtain ⟨s, hr, h0, h1⟩ := hrun
  refine ⟨s, hr, (ordered_locking_finishes (nested_inOrder (by decide)) hr).2 fun a => ?_⟩
  have hnil : ∀ p, s.todo p = [] := Fin.forall_fin_two.mpr ⟨h0, h1⟩
  simp only [next, hnil]

end ArmciMpi.Mutex.Ordered
