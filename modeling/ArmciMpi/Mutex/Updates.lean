import ArmciMpi.Mutex.Safety
import ArmciMpi.Transfer.Calls

/-!
# Updates under a mutex

Every process repeats: lock a mutex, get an integer that all share, add a value,
put it back, unlock. The mutex excludes the others, but `PARMCI_Put` returns
when its source can be used again, and unlocking flushes nothing: the put may
still be in flight when the next process gets the integer.

The mutex is the one of `Mutex.system`, the transfers are those of `PARMCI_Get`
and `PARMCI_Put` on the delayed memory. `updates_kept` says that no update is
lost if every put has arrived when its process unlocks, which full flushes see
to; `update_lost` is a run of the default configuration that loses one.
-/

namespace ArmciMpi.Updates

open Lib

/-- Processes that share an integer and the values each adds to it. -/
structure Job where
  size : Nat
  env : Fin size → Env
  mutex : Mutex.MutexId size
  owner : Nat
  cell : Int
  buf : Fin size → Int
  values : Fin size → List Int

namespace Job

variable (J : Job)

/-- What the processes have to respect: the integer is in a region of its owner, the
local variables are elsewhere, and neither is library memory. -/
structure Ok (arena : Fin J.size → Set Int) : Prop where
  me : ∀ p, (J.env p).me = p
  allocs : ∀ p, (J.env p).Allocs (arena p)
  get : ∀ p, (getTransfer J.cell (J.buf p) 4).Proper (J.env p) J.owner (arena p)
  put : ∀ p, (putTransfer (J.buf p) J.cell 4).Proper (J.env p) J.owner (arena p)
  region : ∀ p, ∃ mreg, gmrLookup (J.env p) J.cell J.owner = .ok (some mreg) ∧
    mreg.Holds J.owner J.cell 4

def value (m : Mem) : Nat := leVal (bytesAt m (J.owner, J.cell) 4)

def add (p : Fin J.size) (v : Int) : Xfer Loc UInt8 :=
  move (fun x _ => leBytes 4 ((leVal x + v) % 2 ^ 32).toNat) 4 (p, J.buf p) (p, J.buf p)

def body (p : Fin J.size) (v : Int) (get put : List Act) : List (Step Loc UInt8 Rma) :=
  actSteps p get ++ .now (J.add p v) :: actSteps p put

end Job

/-- `inside` are the processes that got the integer and have not unlocked yet, `todo`
the values not yet begun to be added. -/
structure State (J : Job) where
  mutex : Mutex.State J.size
  mem : Mem
  procs : Fin J.size → Proc Loc UInt8 Rma
  hist : Fin J.size → List Act
  todo : Fin J.size → List Int
  inside : Fin J.size → Bool

variable {J : Job}

/-- One step of a process, of the mutex or of the memory. With `fenced`, a process
unlocks only when it has nothing in flight. -/
inductive Step (J : Job) (fenced : Prop) : State J → State J → Prop
  | lock (s p t) (hin : s.inside p = false) (htodo : s.todo p ≠ [])
      (hn : Mutex.next s.mutex (.lock p J.mutex) = some t) : Step J fenced s { s with mutex := t }
  | recv (s p k t) (hn : Mutex.next s.mutex (.recv p k) = some t) :
      Step J fenced s { s with mutex := t }
  | enter (s p v vs get put) (hin : s.inside p = false) (hheld : s.mutex.held J.mutex p = true)
      (htodo : s.todo p = v :: vs)
      (hget : parmciGet (J.env p) J.cell (J.buf p) 4 J.owner (s.hist p) = (.ok (), get))
      (hput : parmciPut (J.env p) (J.buf p) J.cell 4 J.owner (s.hist p ++ get) = (.ok (), put)) :
      Step J fenced s { s with
        procs := Function.update s.procs p ⟨(s.procs p).pool, J.body p v get put⟩
        hist := Function.update s.hist p (s.hist p ++ get ++ put)
        todo := Function.update s.todo p vs
        inside := Function.update s.inside p true }
  | memory (s p m q) (h : Proc.Steps s.mem (s.procs p) m q) :
      Step J fenced s { s with mem := m, procs := Function.update s.procs p q }
  | unlock (s p t) (hin : s.inside p = true) (hrest : (s.procs p).rest = [])
      (hfenced : fenced → (s.procs p).pool = [])
      (hn : Mutex.next s.mutex (.unlock p J.mutex) = some t) :
      Step J fenced s { s with mutex := t, inside := Function.update s.inside p false }
  | send (s p t) (hn : Mutex.next s.mutex (.send p) = some t) :
      Step J fenced s { s with mutex := t }

def start (J : Job) (m : Mem) : State J :=
  ⟨.init, m, fun _ => ⟨[], []⟩, fun _ => [], J.values, fun _ => false⟩

/-- All values have been added and nothing is in flight, as after `PARMCI_Barrier`. -/
def State.Finished (s : State J) : Prop :=
  ∀ p, s.todo p = [] ∧ s.inside p = false ∧ s.procs p = ⟨[], []⟩

def total (values : Fin n → List Int) : Int := ∑ p, (values p).sum

-- ------------------------------
-- What the body does
-- ------------------------------

section
variable {arena : Fin J.size → Set Int} (hok : J.Ok arena) {p : Fin J.size} {v : Int}
  {get put h h' : List Act}
include hok

theorem get_does (hget : parmciGet (J.env p) J.cell (J.buf p) 4 J.owner h = (.ok (), get)) :
    (getTransfer J.cell (J.buf p) 4).Does (J.env p) J.owner (arena p) get := by
  obtain ⟨mreg, hlook, hholds⟩ := hok.region p
  exact parmciGet_does (hok.allocs p) (hok.get p) ⟨hlook, List.forall_mem_singleton.mpr hholds⟩ hget

theorem put_does (hput : parmciPut (J.env p) (J.buf p) J.cell 4 J.owner h = (.ok (), put)) :
    (putTransfer (J.buf p) J.cell 4).Does (J.env p) J.owner (arena p) put := by
  obtain ⟨mreg, hlook, hholds⟩ := hok.region p
  exact parmciPut_does (hok.allocs p) (hok.put p) ⟨hlook, List.forall_mem_singleton.mpr hholds⟩ hput

theorem body_free
    (hget : parmciGet (J.env p) J.cell (J.buf p) 4 J.owner h = (.ok (), get))
    (hput : parmciPut (J.env p) (J.buf p) J.cell 4 J.owner h' = (.ok (), put)) :
    RaceFree ∅ (J.body p v get put) := by
  have hg := get_does hok hget
  have hgfree := hg.free (hok.get p)
  have hgafter := hg.after_get rfl
  have hpfree := (put_does hok hput).free (hok.put p)
  rw [hok.me p] at hgfree hgafter hpfree
  rw [Job.body, raceFree_append, hgafter]
  exact ⟨hgfree, fun q hq => hq.elim, hpfree⟩

theorem body_done (hflush : (J.env p).cfg.endToEndFlush = true)
    (hget : parmciGet (J.env p) J.cell (J.buf p) 4 J.owner h = (.ok (), get))
    (hput : parmciPut (J.env p) (J.buf p) J.cell 4 J.owner h' = (.ok (), put)) :
    after ∅ (J.body p v get put) = ∅ := by
  have hgafter := (get_does hok hget).after_get rfl
  have hpafter := (put_does hok hput).after_empty hflush
  rw [hok.me p] at hgafter hpafter
  rw [Job.body, after_append, hgafter]
  exact hpafter

theorem body_value
    (hget : parmciGet (J.env p) J.cell (J.buf p) 4 J.owner h = (.ok (), get))
    (hput : parmciPut (J.env p) (J.buf p) J.cell 4 J.owner h' = (.ok (), put)) (m : Mem) :
    J.value (Xfer.applyAll (stepXfers (J.body p v get put)) m) =
      ((J.value m + v) % 2 ^ 32).toNat := by
  let m₁ := Xfer.applyAll (actXfers (J.env p).me get) m
  have hgot : bytesAt m₁ ((J.env p).me, J.buf p) 4 = bytesAt m (J.owner, J.cell) 4 :=
    single_bytes (by decide) (hok.get p) (get_does hok hget) m
  have hadd : bytesAt ((J.add p v).apply m₁) (p, J.buf p) 4 =
      leBytes 4 ((leVal (bytesAt m₁ (p, J.buf p) 4) + v) % 2 ^ 32).toNat :=
    move_bytes (fun _ _ _ _ => leBytes_length _ _) m₁ m₁ _ _
  have hsent : bytesAt (Xfer.applyAll (actXfers (J.env p).me put) ((J.add p v).apply m₁))
      (J.owner, J.cell) 4 = bytesAt ((J.add p v).apply m₁) ((J.env p).me, J.buf p) 4 :=
    single_bytes (by decide) (hok.put p) (put_does hok hput) _
  have hbody : Xfer.applyAll (stepXfers (J.body p v get put)) m =
      Xfer.applyAll (actXfers (J.env p).me put) ((J.add p v).apply m₁) := by
    rw [Job.body, stepXfers_append, Xfer.applyAll_append, ← hok.me p]
    rfl
  rw [hok.me p] at hgot hsent
  rw [Job.value, hbody, hok.me p, hsent, hadd, hgot, leVal_leBytes, Job.value]
  have hlt : ((leVal (bytesAt m (J.owner, J.cell) 4) + v) % 2 ^ 32).toNat < 256 ^ 4 := by omega
  exact Nat.mod_eq_of_lt hlt

end

-- ------------------------------
-- The invariant
-- ------------------------------

theorem held_of_next {n : Nat} {s t : Mutex.State n} {a : Mutex.Act n} {p : Fin n}
    {μ : Mutex.MutexId n} (hn : Mutex.next s a = some t) (ha : ∀ ν, a ≠ .unlock p ν)
    (h : s.held μ p = true) : t.held μ p = true := by
  cases Mutex.next_does hn with
  | wait | enter | recv | send => simp [h]
  | @handOff q ν r | @leave q ν =>
    have hq : p ≠ q := fun heq => ha ν (heq ▸ rfl)
    simp [h, hq]

theorem total_update {n : Nat} {f : Fin n → List Int} {p : Fin n} {v : Int} {vs : List Int}
    (h : f p = v :: vs) : total (Function.update f p vs) + v = total f := by
  have hsum : ∀ q, (Function.update f p vs q).sum = Function.update (fun q => (f q).sum) p vs.sum q := by
    intro q
    by_cases hq : q = p
    · subst hq
      simp
    · simp [hq]
  have hp : (f p).sum = v + vs.sum := by rw [h, List.sum_cons]
  simp only [total, hsum]
  rw [Finset.sum_update_of_mem (Finset.mem_univ p), ← Finset.add_sum_erase _ _ (Finset.mem_univ p), hp,
    Finset.sdiff_singleton_eq_erase]
  omega

def Right (J : Job) (m₀ m : Mem) (todo : Fin J.size → List Int) : Prop :=
  (J.value m + total todo) % 2 ^ 32 = (J.value m₀ + total J.values) % 2 ^ 32

/-- A process is inside: it began in a memory in which the integer was right up to its
own value, and it alone has worked since. -/
structure Working (J : Job) (m₀ : Mem) (s : State J) (p : Fin J.size) : Prop where
  held : s.mutex.held J.mutex p = true
  run : ∃ v get put h h' m, parmciGet (J.env p) J.cell (J.buf p) 4 J.owner h = (.ok (), get) ∧
    parmciPut (J.env p) (J.buf p) J.cell 4 J.owner h' = (.ok (), put) ∧
    (J.value m + v + total s.todo) % 2 ^ 32 = (J.value m₀ + total J.values) % 2 ^ 32 ∧
    Relation.ReflTransGen ProcStep (m, ⟨[], J.body p v get put⟩) (s.mem, s.procs p)

structure Inv (J : Job) (m₀ : Mem) (s : State J) : Prop where
  mutex : Mutex.Inv s.mutex
  outside : ∀ p, s.inside p = false → s.procs p = ⟨[], []⟩
  working : ∀ p, s.inside p = true → Working J m₀ s p
  quiet : (∀ p, s.inside p = false) → Right J m₀ s.mem s.todo

theorem Inv.setMutex {m₀ : Mem} {s : State J} (h : Inv J m₀ s) {a : Mutex.Act J.size}
    {t : Mutex.State J.size} (hn : Mutex.next s.mutex a = some t)
    (ha : ∀ p ν, a ≠ .unlock p ν) : Inv J m₀ { s with mutex := t } where
  mutex := h.mutex.step (Mutex.next_does hn)
  outside := h.outside
  working := fun p hp => ⟨held_of_next hn (ha p) (h.working p hp).held, (h.working p hp).run⟩
  quiet := h.quiet

theorem Inv.alone {m₀ : Mem} {s : State J} (h : Inv J m₀ s) {p q : Fin J.size}
    (hp : s.mutex.held J.mutex p = true) (hq : s.inside q = true) : q = p :=
  h.mutex.sole_holder hp (h.working q hq).held

theorem Inv.enter {m₀ : Mem} {s : State J} (h : Inv J m₀ s) {p : Fin J.size} {v : Int}
    {vs : List Int} {get put : List Act} (hin : s.inside p = false)
    (hheld : s.mutex.held J.mutex p = true) (htodo : s.todo p = v :: vs)
    (hget : parmciGet (J.env p) J.cell (J.buf p) 4 J.owner (s.hist p) = (.ok (), get))
    (hput : parmciPut (J.env p) (J.buf p) J.cell 4 J.owner (s.hist p ++ get) = (.ok (), put)) :
    Inv J m₀ { s with
      procs := Function.update s.procs p ⟨(s.procs p).pool, J.body p v get put⟩
      hist := Function.update s.hist p (s.hist p ++ get ++ put)
      todo := Function.update s.todo p vs
      inside := Function.update s.inside p true } := by
  have hempty : ∀ q, s.inside q = false := by
    intro q
    by_contra hq
    have hq : s.inside q = true := by simpa using hq
    rw [h.alone hheld hq, hin] at hq
    cases hq
  refine ⟨h.mutex, fun q hq => ?_, fun q hq => ?_, fun hall => ?_⟩
  · have hne : q ≠ p := by
      rintro rfl
      simp at hq
    simpa [hne] using h.outside q (hempty q)
  · have hqp : q = p := by
      by_contra hne
      simp [hne, hempty q] at hq
    subst hqp
    refine ⟨hheld, v, get, put, _, _, s.mem, hget, hput, ?_, ?_⟩
    · have hsum := total_update htodo
      have hright := h.quiet hempty
      unfold Right at hright
      show (J.value s.mem + v + total (Function.update s.todo q vs)) % 2 ^ 32 = _
      omega
    · simp only [h.outside q hin, Function.update_self]
      exact .refl
  · have := hall p
    simp at this

theorem Inv.memory {m₀ : Mem} {s : State J} (h : Inv J m₀ s) {p : Fin J.size} {m : Mem}
    {q : Proc Loc UInt8 Rma} (hstep : Proc.Steps s.mem (s.procs p) m q) :
    Inv J m₀ { s with mem := m, procs := Function.update s.procs p q } := by
  have hin : s.inside p = true := by
    by_contra hout
    rw [h.outside p (by simpa using hout)] at hstep
    generalize hnil : (⟨[], []⟩ : Proc Loc UInt8 Rma) = idle at hstep
    cases hstep <;> simp at hnil
  refine ⟨h.mutex, fun r hr => ?_, fun r hr => ?_, fun hall => ?_⟩
  · have hne : r ≠ p := by
      rintro rfl
      rw [hin] at hr
      cases hr
    simpa [hne] using h.outside r hr
  · obtain rfl := h.alone (h.working p hin).held hr
    obtain ⟨hheld, v, get, put, h₁, h₂, m₁, hget, hput, hval, hrun⟩ := h.working r hin
    refine ⟨hheld, v, get, put, h₁, h₂, m₁, hget, hput, hval, ?_⟩
    simp only [Function.update_self]
    exact hrun.tail hstep
  · rw [hall p] at hin
    cases hin

section
variable {arena : Fin J.size → Set Int} (hok : J.Ok arena) {fenced : Prop}
  (hcond : fenced ∨ ∀ p, (J.env p).cfg.endToEndFlush = true)
include hok hcond

theorem Inv.unlock {m₀ : Mem} {s : State J} (h : Inv J m₀ s) {p : Fin J.size}
    {t : Mutex.State J.size} (hin : s.inside p = true) (hrest : (s.procs p).rest = [])
    (hfenced : fenced → (s.procs p).pool = [])
    (hn : Mutex.next s.mutex (.unlock p J.mutex) = some t) :
    Inv J m₀ { s with mutex := t, inside := Function.update s.inside p false } := by
  obtain ⟨hheld, v, get, put, h₁, h₂, m₁, hget, hput, hval, hrun⟩ := h.working p hin
  have hfree := body_free hok (v := v) hget hput
  have hproc : s.procs p = ⟨(s.procs p).pool, []⟩ := by rw [← hrest]
  rw [hproc] at hrun
  have hpool : (s.procs p).pool = [] := by
    rcases hcond with hf | hflush
    · exact hfenced hf
    · have hpart : Relation.ReflTransGen ProcStep (m₁, ⟨[], J.body p v get put ++ []⟩)
          (s.mem, ⟨(s.procs p).pool, []⟩) := by rwa [List.append_nil]
      exact (run_part_done hpart hfree (body_done hok (hflush p) hget hput)).1
  rw [hpool] at hrun hproc
  have hmem := run_proc_done hrun hfree
  have hvalue := body_value hok (v := v) hget hput m₁
  rw [← hmem] at hvalue
  have hothers : ∀ q, q ≠ p → s.inside q = false := by
    intro q hne
    by_contra hq
    exact hne (h.alone hheld (by simpa using hq))
  refine ⟨h.mutex.step (Mutex.next_does hn), fun q _ => ?_, fun q hq => ?_, fun _ => ?_⟩
  · by_cases hne : q = p
    · exact hne ▸ hproc
    · exact h.outside q (hothers q hne)
  · by_cases hne : q = p
    · simp [hne] at hq
    · simp [hne, hothers q hne] at hq
  · show (J.value s.mem + total s.todo) % 2 ^ 32 = _
    omega

theorem Inv.step {m₀ : Mem} {s t : State J} (h : Inv J m₀ s) (hstep : Step J fenced s t) :
    Inv J m₀ t := by
  cases hstep with
  | lock p u hin htodo hn => exact h.setMutex hn fun _ _ heq => by cases heq
  | recv p k u hn => exact h.setMutex hn fun _ _ heq => by cases heq
  | send p u hn => exact h.setMutex hn fun _ _ heq => by cases heq
  | enter p v vs get put hin hheld htodo hget hput => exact h.enter hin hheld htodo hget hput
  | memory p m q hm => exact h.memory hm
  | unlock p u hin hrest hfenced hn => exact h.unlock hok hcond hin hrest hfenced hn

theorem inv_of_run {m₀ : Mem} {s : State J}
    (hrun : Relation.ReflTransGen (Step J fenced) (start J m₀) s) : Inv J m₀ s := by
  induction hrun with
  | refl =>
    exact ⟨Mutex.inv_init, fun _ _ => rfl, fun _ hp => absurd hp Bool.false_ne_true, fun _ => rfl⟩
  | tail _ hstep ih => exact ih.step hok hcond hstep

/-- No update is lost if every put has arrived when its process unlocks. -/
theorem updates_kept {m₀ : Mem} {s : State J}
    (hrun : Relation.ReflTransGen (Step J fenced) (start J m₀) s) (hdone : s.Finished) :
    (J.value s.mem : Int) = (J.value m₀ + total J.values) % 2 ^ 32 := by
  have hright := (inv_of_run hok hcond hrun).quiet fun p => (hdone p).2.1
  have htodo : total s.todo = 0 := Finset.sum_eq_zero fun p _ => by rw [(hdone p).1, List.sum_nil]
  have hlt : J.value s.mem < 256 ^ 4 := leVal_lt (bytesAt_length _ _ _)
  unfold Right at hright
  omega

end

-- ------------------------------
-- A lost update
-- ------------------------------

theorem run_memory (fenced : Prop) (s : State J) (p : Fin J.size) {m : Mem}
    {q : Proc Loc UInt8 Rma} (h : Relation.ReflTransGen ProcStep (s.mem, s.procs p) (m, q)) :
    Relation.ReflTransGen (Step J fenced) s
      { s with mem := m, procs := Function.update s.procs p q } := by
  generalize hfin : (m, q) = fin at h
  induction h generalizing m q with
  | refl =>
    cases hfin
    rw [Function.update_eq_self]
  | @tail b c _ hstep ih =>
    subst hfin
    refine .tail (ih rfl) ?_
    have hproc : Proc.Steps b.1 (Function.update s.procs p b.2 p) m q := by
      rw [Function.update_self]
      exact hstep
    have hmem : Step J fenced _ _ :=
      .memory { s with mem := b.1, procs := Function.update s.procs p b.2 } p m q hproc
    rwa [Function.update_idem] at hmem

structure Free (J : Job) (u : Mutex.State J.size) : Prop where
  window : ∀ q, u.window J.mutex q = 0
  pc : ∀ q, u.pc q = .idle
  held : ∀ q, u.held J.mutex q = false

theorem Free.lock_unlock {u : Mutex.State J.size} (h : Free J u) (p : Fin J.size) :
    ∃ u₁ u₂, Mutex.next u (.lock p J.mutex) = some u₁ ∧ u₁.held J.mutex p = true ∧
      Mutex.next u₁ (.unlock p J.mutex) = some u₂ ∧ Free J u₂ := by
  obtain ⟨u₁, hlock⟩ : ∃ u₁, Mutex.next u (.lock p J.mutex) = some u₁ :=
    ⟨_, if_pos ⟨h.pc p, h.held p⟩⟩
  cases Mutex.next_does hlock with
  | @wait _ _ i _ _ _ hset => exact absurd (h.window i) hset
  | enter =>
    obtain ⟨u₂, hunlock⟩ : ∃ u₂, Mutex.next ((u.setWindow J.mutex
        (Function.update (u.window J.mutex) p 1)).acquire p J.mutex) (.unlock p J.mutex) = some u₂ :=
      ⟨_, if_pos (by simp)⟩
    refine ⟨_, u₂, hlock, by simp, hunlock, ?_⟩
    cases Mutex.next_does hunlock with
    | handOff _ _ hne hwait => simp [hne, h.window] at hwait
    | leave =>
      refine ⟨fun q => ?_, fun q => ?_, fun q => ?_⟩
      · by_cases hq : q = p <;> simp [hq, h.window]
      · by_cases hq : q = p <;> simp [hq, h.pc]
      · by_cases hq : q = p <;> simp [hq, h.held]

theorem exists_iteration (fenced : Prop) {s : State J} (hfree : Free J s.mutex) {p : Fin J.size} {v : Int}
    {vs : List Int} {get put : List Act} {m : Mem} {P : List (Flight Loc UInt8 Rma)}
    (hin : s.inside p = false) (htodo : s.todo p = v :: vs) (hidle : s.procs p = ⟨[], []⟩)
    (hget : parmciGet (J.env p) J.cell (J.buf p) 4 J.owner (s.hist p) = (.ok (), get))
    (hput : parmciPut (J.env p) (J.buf p) J.cell 4 J.owner (s.hist p ++ get) = (.ok (), put))
    (hrun : Relation.ReflTransGen ProcStep (s.mem, ⟨[], J.body p v get put⟩) (m, ⟨P, []⟩))
    (hP : fenced → P = []) :
    ∃ t, Relation.ReflTransGen (Step J fenced) s t ∧ Free J t.mutex ∧ t.mem = m ∧
      t.procs = Function.update s.procs p ⟨P, []⟩ ∧ t.todo = Function.update s.todo p vs ∧
      t.inside = s.inside ∧ ∀ q, q ≠ p → t.hist q = s.hist q := by
  obtain ⟨u₁, u₂, hlock, hheld, hunlock, hfree'⟩ := hfree.lock_unlock p
  have h₁ : Relation.ReflTransGen (Step J fenced) s { s with mutex := u₁ } :=
    .single (.lock s p u₁ hin (by simp [htodo]) hlock)
  have h₂ := h₁.tail (.enter { s with mutex := u₁ } p v vs get put hin hheld htodo hget hput)
  have h₃ := h₂.trans (run_memory fenced _ p (m := m) (q := ⟨P, []⟩) (by simpa [hidle] using hrun))
  have h₄ := h₃.tail (.unlock _ p u₂ (by simp) (by simp) (by simpa using hP) hunlock)
  refine ⟨_, h₄, hfree', rfl, ?_, rfl, ?_, ?_⟩
  · simp
  · simp [← hin]
  · intro q hq
    simp [hq]

def pairJob : Job where
  size := 2
  env := fun p => pairEnv defaultState p 0
  mutex := ⟨0, ⟨0, Nat.two_pos⟩⟩
  owner := 1
  cell := 8192
  buf := fun _ => 16
  values := fun p : Fin 2 => if p = ⟨0, Nat.two_pos⟩ then [5] else [3]

theorem pairJob_ok : pairJob.Ok fun _ => highArena where
  me := fun _ => rfl
  allocs := fun p => pairEnv_allocs defaultState p 0
  get := fun _ => apart_proper (.inr rfl) (by decide) (show (0 : Int) < 16 by decide)
    (show (16 : Int) + (4 : Nat) ≤ 8192 by decide) (by decide) (fun _ h => h) fun _ => rfl
  put := fun _ => apart_proper (.inr rfl) (by decide) (show (0 : Int) < 16 by decide)
    (show (16 : Int) + (4 : Nat) ≤ 8192 by decide) (by decide) (fun _ h => h) fun _ => rfl
  region := fun _ => ⟨_, rfl, show (8192 : Int) ≤ 8192 by decide,
    show (8192 : Int) < 8192 + 64 by decide, show (8192 : Int) + (4 : Nat) ≤ 8192 + 64 by decide⟩

theorem pairJob_finished {s t : State pairJob} {P : List (Flight Loc UInt8 Rma)}
    (hprocs₁ : s.procs = Function.update (fun _ => ⟨[], []⟩) (0 : Fin 2) ⟨P, []⟩)
    (htodo₁ : s.todo = Function.update pairJob.values (0 : Fin 2) [])
    (hin₁ : s.inside = fun _ => false)
    (hprocs₂ : t.procs = Function.update s.procs (1 : Fin 2) ⟨[], []⟩)
    (htodo₂ : t.todo = Function.update s.todo (1 : Fin 2) []) (hin₂ : t.inside = s.inside) :
    ∀ p : Fin 2, t.todo p = [] ∧ t.inside p = false ∧
      Function.update t.procs (0 : Fin 2) ⟨[], []⟩ p = ⟨[], []⟩ := by
  rw [htodo₂, htodo₁, hin₂, hin₁, hprocs₂, hprocs₁]
  exact Fin.forall_fin_two.mpr ⟨⟨rfl, rfl, rfl⟩, ⟨rfl, rfl, rfl⟩⟩

theorem updates_kept_pair : ∃ s, Relation.ReflTransGen (Step pairJob True)
    (start pairJob fun _ => 0) s ∧ s.Finished ∧
      (pairJob.value s.mem : Int) = (pairJob.value (fun _ => 0) + total pairJob.values) % 2 ^ 32 := by
  have hfree : Free pairJob (start pairJob fun _ => 0).mutex :=
    ⟨fun _ => rfl, fun _ => rfl, fun _ => rfl⟩
  obtain ⟨s, h₁, hfree₁, hmem₁, hprocs₁, htodo₁, hin₁, hhist₁⟩ :=
    exists_iteration True hfree (p := (0 : Fin 2)) (v := 5) rfl rfl rfl rfl rfl
      (exists_run_proc _ _) fun _ => rfl
  have hhist : s.hist (1 : Fin 2) = [] := hhist₁ _ (show (1 : Fin 2) ≠ 0 by decide)
  obtain ⟨t, h₂, -, hmem₂, hprocs₂, htodo₂, hin₂, -⟩ :=
    exists_iteration True hfree₁ (p := (1 : Fin 2)) (v := 3) (by rw [hin₁]; rfl)
      (by rw [htodo₁]; rfl) (by rw [hprocs₁]; rfl) (by rw [hhist]; rfl) (by rw [hhist]; rfl)
      (exists_run_proc _ _) fun _ => rfl
  have hproc : t.procs (0 : Fin 2) = ⟨[], []⟩ := by
    rw [hprocs₂, hprocs₁]
    rfl
  have hdone : t.Finished := by
    have hdone := pairJob_finished hprocs₁ htodo₁ hin₁ hprocs₂ htodo₂ hin₂
    have hsame : Function.update t.procs (0 : Fin 2) ⟨[], []⟩ = t.procs := by
      rw [← hproc]
      exact Function.update_eq_self ..
    rwa [hsame] at hdone
  exact ⟨t, h₁.trans h₂, hdone, updates_kept pairJob_ok (.inl trivial) (h₁.trans h₂) hdone⟩

def putOp : Rma :=
  rmaOf (pairEnv defaultState ⟨0, Nat.two_pos⟩ 0) .put false (pairRegion defaultState ⟨0, Nat.two_pos⟩)
    pairWin 16 4 (.predefined .byte) 8192 4 (.predefined .byte) 1 1 none

def upToPut : List (Lib.Step Loc UInt8 Rma) :=
  actSteps 0 (parmciGet (pairEnv defaultState ⟨0, Nat.two_pos⟩ 0) 8192 16 4 1 []).2 ++
    [.now (pairJob.add ⟨0, Nat.two_pos⟩ 5)]

def beforePut : Mem := Xfer.applyAll (stepXfers upToPut) fun _ => 0

def putFlights : List (Flight Loc UInt8 Rma) :=
  (flights putOp false (putOp.xfers 0)).map (·.hold beforePut)

theorem run_upToPut : Relation.ReflTransGen ProcStep ((fun _ => 0 : Mem),
    ⟨[], pairJob.body (0 : Fin 2) 5 (parmciGet (pairJob.env (0 : Fin 2)) 8192 16 4 1 []).2
      [.rma putOp, .flushLocal pairWin 1]⟩) (beforePut, ⟨putFlights, []⟩) := by
  have hnot : ¬ (Act.flushLocal pairWin 1).Completes .target putOp := by decide
  exact exists_run_held upToPut putOp (putOp.xfers 0) hnot fun _ => 0

theorem putFlights_value (m : Mem) :
    pairJob.value (Xfer.applyAll (putFlights.map Flight.x) m) = 5 := by
  rfl

/-- The put of the first process arrives when the second one has added its value to
the old integer and unlocked. -/
theorem update_lost :
    pairJob.Ok (fun _ => highArena) ∧ (∀ p, (pairJob.env p).cfg = defaultState) ∧
      ∃ s, Relation.ReflTransGen (Step pairJob False) (start pairJob fun _ => 0) s ∧ s.Finished ∧
        pairJob.value (fun _ => 0) + total pairJob.values = 8 ∧ pairJob.value s.mem = 5 := by
  have hfree : Free pairJob (start pairJob fun _ => 0).mutex :=
    ⟨fun _ => rfl, fun _ => rfl, fun _ => rfl⟩
  obtain ⟨s, h₁, hfree₁, hmem₁, hprocs₁, htodo₁, hin₁, hhist₁⟩ :=
    exists_iteration False hfree (p := (0 : Fin 2)) (v := 5) rfl rfl rfl rfl rfl
      run_upToPut False.elim
  have hhist : s.hist (1 : Fin 2) = [] := hhist₁ _ (show (1 : Fin 2) ≠ 0 by decide)
  obtain ⟨t, h₂, -, hmem₂, hprocs₂, htodo₂, hin₂, -⟩ :=
    exists_iteration False hfree₁ (p := (1 : Fin 2)) (v := 3) (by rw [hin₁]; rfl)
      (by rw [htodo₁]; rfl) (by rw [hprocs₁]; rfl) (by rw [hhist]; rfl) (by rw [hhist]; rfl)
      (exists_run_proc _ _) False.elim
  have hheld : ∀ q ∈ putFlights, q.held = true := by
    intro q hq
    obtain ⟨q', -, rfl⟩ := List.mem_map.mp hq
    rfl
  have hproc : t.procs (0 : Fin 2) = ⟨putFlights, []⟩ := by
    rw [hprocs₂, hprocs₁]
    rfl
  have h₃ := run_memory False t (0 : Fin 2)
    (hproc ▸ exists_run_writes putFlights hheld [] t.mem)
  exact ⟨pairJob_ok, fun _ => rfl, _, (h₁.trans h₂).trans h₃,
    pairJob_finished hprocs₁ htodo₁ hin₁ hprocs₂ htodo₂ hin₂, by decide, putFlights_value t.mem⟩

end ArmciMpi.Updates
