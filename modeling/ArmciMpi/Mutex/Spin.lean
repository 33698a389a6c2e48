import ArmciMpi.Mpi.Types
import ArmciMpi.Mutex.Queue
import Mathlib.Algebra.BigOperators.Intervals
import Mathlib.Algebra.BigOperators.Fin

/-!
# The spinning mutex

`mutex_hdl_spin.c`, the alternative to the queueing mutex: a mutex is one
`long` on its host. A process adds its rank plus one to the word and holds the
mutex if it then reads just that; otherwise it subtracts the value again, and
`ARMCIX_Lock_hdl` retries after a while. Every addition, subtraction and read
is an exclusive epoch of its own and one step of the model.

The word is always the sum of what is added and not yet undone, so at most one
process holds the mutex, whatever the number of processes. The two assertions
on the value read are another matter, since their bound is computed in `int`
(`safe_iff`).
-/

namespace ArmciMpi.Mutex.Spin

open Lib

variable {nproc : Nat}

/-- Which of the two calls a process is in; `timeout` is the back-off of the lock. -/
inductive Call
  | lock (timeout : Nat)
  | trylock
  deriving DecidableEq

inductive Pc (nproc : Nat)
  | idle
  /-- Its value is added and the word is to be read. -/
  | reading (μ : MutexId nproc) (call : Call)
  /-- It has read another value and is to subtract its own. -/
  | undoing (μ : MutexId nproc) (call : Call)
  /-- The back-off of the lock, before the value is added again. -/
  | sleeping (μ : MutexId nproc) (timeout : Nat)
  deriving DecidableEq

/-- `added`, the processes whose addition is not yet undone, and `tried`, what the last
call of a process returned if it was a `ARMCIX_Trylock_hdl`, are not in the source. -/
structure State (nproc : Nat) where
  word : MutexId nproc → Int
  pc : Fin nproc → Pc nproc
  held : MutexId nproc → Fin nproc → Bool
  added : MutexId nproc → Fin nproc → Bool
  tried : Fin nproc → Option (MutexId nproc × Int)
  aborted : Bool

/-- `ARMCIX_Create_mutexes_hdl` zeroes every mutex. -/
def State.init : State nproc where
  word _ := 0
  pc _ := .idle
  held _ _ := false
  added _ _ := false
  tried _ := none
  aborted := false

def lockVal (rank : Fin nproc) : Int := rank + 1

def unlockVal (rank : Fin nproc) : Int := -1 * (rank + 1)

/-- `nproc*(nproc+1)/2`, computed in `int`. -/
def lockBound (nproc : Nat) : Int := (i32 (nproc * i32 (nproc + 1))).tdiv 2

def maxTimeout : Nat := 1000

def timeoutMul : Nat := 2

/-- The epoch that adds `lock_val`. -/
def State.add (s : State nproc) (p : Fin nproc) (μ : MutexId nproc) : State nproc :=
  { s with
    word := Function.update s.word μ (s.word μ + lockVal p)
    added := Function.update s.added μ (Function.update (s.added μ) p true) }

/-- The epoch that adds `unlock_val`. -/
def State.undo (s : State nproc) (p : Fin nproc) (μ : MutexId nproc) : State nproc :=
  { s with
    word := Function.update s.word μ (s.word μ + unlockVal p)
    added := Function.update s.added μ (Function.update (s.added μ) p false) }

def State.setPc (s : State nproc) (p : Fin nproc) (c : Pc nproc) : State nproc :=
  { s with pc := Function.update s.pc p c }

def State.setHeld (s : State nproc) (p : Fin nproc) (μ : MutexId nproc) (b : Bool) : State nproc :=
  { s with held := Function.update s.held μ (Function.update (s.held μ) p b) }

def State.setTried (s : State nproc) (p : Fin nproc) (r : Option (MutexId nproc × Int)) :
    State nproc :=
  { s with tried := Function.update s.tried p r }

def State.return (s : State nproc) (p : Fin nproc) (μ : MutexId nproc) (ret : Int) :
    Call → State nproc
  | .lock _ => s.setPc p .idle
  | .trylock => (s.setPc p .idle).setTried p (some (μ, ret))

/-- The epoch that reads the word, the assertions on it and the test. -/
def State.read (s : State nproc) (p : Fin nproc) (μ : MutexId nproc) (call : Call) : State nproc :=
  let lockOut := s.word μ
  if ¬ (0 < lockOut ∧ lockOut ≤ lockBound nproc) then { s with aborted := true }
  else if lockOut = p + 1 then (s.setHeld p μ true).return p μ 0 call
  else s.setPc p (.undoing μ call)

/-- The back-off after a sleep; `reset` is the outcome of `rand() % nproc == 0`. -/
def backOff (timeout : Nat) (reset : Bool) : Nat :=
  if reset then 1 else min (timeout * timeoutMul) maxTimeout

inductive Act (nproc : Nat)
  | lock (p : Fin nproc) (μ : MutexId nproc)
  | trylock (p : Fin nproc) (μ : MutexId nproc)
  | unlock (p : Fin nproc) (μ : MutexId nproc)
  /-- The process takes the next step of its call. -/
  | go (p : Fin nproc) (reset : Bool)

def go (s : State nproc) (p : Fin nproc) (reset : Bool) : Pc nproc → Option (State nproc)
  | .idle => none
  | .reading μ call => some (s.read p μ call)
  | .undoing μ (.lock timeout) => some ((s.undo p μ).setPc p (.sleeping μ timeout))
  | .undoing μ .trylock => some ((s.undo p μ).return p μ 1 .trylock)
  | .sleeping μ timeout => some ((s.add p μ).setPc p (.reading μ (.lock (backOff timeout reset))))

/-- The enabled steps. A process locks only mutexes it does not hold and unlocks only
mutexes it holds; a failed assertion ends the run. -/
def next (s : State nproc) (a : Act nproc) : Option (State nproc) :=
  if s.aborted then none
  else match a with
    | .lock p μ =>
      if s.pc p = .idle ∧ s.held μ p = false then
        some (((s.setTried p none).add p μ).setPc p (.reading μ (.lock 1)))
      else none
    | .trylock p μ =>
      if s.pc p = .idle ∧ s.held μ p = false then
        some (((s.setTried p none).add p μ).setPc p (.reading μ .trylock))
      else none
    | .unlock p μ =>
      if s.pc p = .idle ∧ s.held μ p = true then
        some (((s.setTried p none).undo p μ).setHeld p μ false)
      else none
    | .go p reset => go s p reset (s.pc p)

def system (nproc : Nat) : System (State nproc) (Act nproc) where
  init s := s = State.init
  next := next

section
variable (s : State nproc) (p q : Fin nproc) (μ ν : MutexId nproc)

@[simp, grind =] theorem State.add_pc : (s.add p μ).pc q = s.pc q := rfl
@[simp, grind =] theorem State.add_held : (s.add p μ).held ν q = s.held ν q := rfl
@[simp, grind =] theorem State.add_tried : (s.add p μ).tried q = s.tried q := rfl
@[simp, grind =] theorem State.add_added :
    (s.add p μ).added ν q = if ν = μ ∧ q = p then true else s.added ν q := by
  by_cases h : ν = μ <;> simp [State.add, Function.update_apply, h]

@[simp, grind =] theorem State.undo_pc : (s.undo p μ).pc q = s.pc q := rfl
@[simp, grind =] theorem State.undo_held : (s.undo p μ).held ν q = s.held ν q := rfl
@[simp, grind =] theorem State.undo_tried : (s.undo p μ).tried q = s.tried q := rfl
@[simp, grind =] theorem State.undo_added :
    (s.undo p μ).added ν q = if ν = μ ∧ q = p then false else s.added ν q := by
  by_cases h : ν = μ <;> simp [State.undo, Function.update_apply, h]

@[simp, grind =] theorem State.setPc_word : (s.setPc p c).word ν = s.word ν := rfl
@[simp, grind =] theorem State.setPc_held : (s.setPc p c).held ν q = s.held ν q := rfl
@[simp, grind =] theorem State.setPc_added : (s.setPc p c).added ν q = s.added ν q := rfl
@[simp, grind =] theorem State.setPc_tried : (s.setPc p c).tried q = s.tried q := rfl
@[simp, grind =] theorem State.setPc_pc :
    (s.setPc p c).pc q = if q = p then c else s.pc q := Function.update_apply ..

@[simp, grind =] theorem State.setHeld_word : (s.setHeld p μ b).word ν = s.word ν := rfl
@[simp, grind =] theorem State.setHeld_pc : (s.setHeld p μ b).pc q = s.pc q := rfl
@[simp, grind =] theorem State.setHeld_added : (s.setHeld p μ b).added ν q = s.added ν q := rfl
@[simp, grind =] theorem State.setHeld_tried : (s.setHeld p μ b).tried q = s.tried q := rfl
@[simp, grind =] theorem State.setHeld_held :
    (s.setHeld p μ b).held ν q = if ν = μ ∧ q = p then b else s.held ν q := by
  by_cases h : ν = μ <;> simp [State.setHeld, Function.update_apply, h]

@[simp, grind =] theorem State.setTried_word : (s.setTried p r).word ν = s.word ν := rfl
@[simp, grind =] theorem State.setTried_pc : (s.setTried p r).pc q = s.pc q := rfl
@[simp, grind =] theorem State.setTried_added : (s.setTried p r).added ν q = s.added ν q := rfl
@[simp, grind =] theorem State.setTried_held : (s.setTried p r).held ν q = s.held ν q := rfl
@[simp, grind =] theorem State.setTried_tried :
    (s.setTried p r).tried q = if q = p then r else s.tried q := Function.update_apply ..

@[simp, grind =] theorem State.return_word : (s.return p μ ret call).word ν = s.word ν := by
  cases call <;> rfl
@[simp, grind =] theorem State.return_held : (s.return p μ ret call).held ν q = s.held ν q := by
  cases call <;> rfl
@[simp, grind =] theorem State.return_added : (s.return p μ ret call).added ν q = s.added ν q := by
  cases call <;> rfl
@[simp, grind =] theorem State.return_pc :
    (s.return p μ ret call).pc q = if q = p then .idle else s.pc q := by
  cases call <;> simp [State.return]
@[simp, grind =] theorem State.return_tried : (s.return p μ ret call).tried q =
    if q = p ∧ call = .trylock then some (μ, ret) else s.tried q := by
  cases call <;> simp [State.return]

end

-- ------------------------------
-- What a step can do
-- ------------------------------

inductive Does (s : State nproc) : State nproc → Prop
  | call : s.pc p = .idle → s.held μ p = false → c = .lock 1 ∨ c = .trylock →
      Does s (((s.setTried p none).add p μ).setPc p (.reading μ c))
  | again (reset : Bool) : s.pc p = .sleeping μ timeout →
      Does s ((s.add p μ).setPc p (.reading μ (.lock (backOff timeout reset))))
  | abort : s.pc p = .reading μ c → ¬ (0 < s.word μ ∧ s.word μ ≤ lockBound nproc) →
      Does s { s with aborted := true }
  | enter : s.pc p = .reading μ c → s.word μ = p + 1 → Does s ((s.setHeld p μ true).return p μ 0 c)
  | miss : s.pc p = .reading μ c → Does s (s.setPc p (.undoing μ c))
  | back : s.pc p = .undoing μ (.lock timeout) →
      Does s ((s.undo p μ).setPc p (.sleeping μ timeout))
  | fail : s.pc p = .undoing μ .trylock → Does s ((s.undo p μ).return p μ 1 .trylock)
  | leave : s.pc p = .idle → s.held μ p = true →
      Does s (((s.setTried p none).undo p μ).setHeld p μ false)

theorem read_does {s : State nproc} (hpc : s.pc p = .reading μ c) : Does s (s.read p μ c) := by
  unfold State.read
  dsimp only
  split
  · exact .abort hpc ‹_›
  · split
    · exact .enter hpc ‹_›
    · exact .miss hpc

theorem next_does {s t : State nproc} (h : next s a = some t) : Does s t := by
  unfold next at h
  split at h
  · cases h
  · cases a with
    | lock p μ =>
      obtain ⟨⟨hpc, hh⟩, ⟨⟩⟩ := Option.ite_none_right_eq_some.mp h
      exact .call hpc hh (.inl rfl)
    | trylock p μ =>
      obtain ⟨⟨hpc, hh⟩, ⟨⟩⟩ := Option.ite_none_right_eq_some.mp h
      exact .call hpc hh (.inr rfl)
    | unlock p μ =>
      obtain ⟨⟨hpc, hh⟩, ⟨⟩⟩ := Option.ite_none_right_eq_some.mp h
      exact .leave hpc hh
    | go p reset =>
      cases hpc : s.pc p with
      | idle => simp [hpc, go] at h
      | reading μ c =>
        obtain rfl : s.read p μ c = t := by simpa [hpc, go] using h
        exact read_does hpc
      | undoing μ c =>
        cases c with
        | lock timeout =>
          obtain rfl : (s.undo p μ).setPc p (.sleeping μ timeout) = t := by simpa [hpc, go] using h
          exact .back hpc
        | trylock =>
          obtain rfl : (s.undo p μ).return p μ 1 .trylock = t := by simpa [hpc, go] using h
          exact .fail hpc
      | sleeping μ timeout =>
        simp only [hpc, go, Option.some.injEq] at h
        subst h
        exact .again reset hpc

-- ------------------------------
-- The invariant
-- ------------------------------

variable {s t : State nproc} {p q : Fin nproc} {μ : MutexId nproc}

/-- The process is in a call on the mutex, and its value is added. -/
@[simp, grind =] def Pc.contends (μ : MutexId nproc) : Pc nproc → Prop
  | .reading ν _ => ν = μ
  | .undoing ν _ => ν = μ
  | _ => False

/-- The process is in a call on the mutex. -/
@[simp, grind =] def Pc.on (μ : MutexId nproc) : Pc nproc → Prop
  | .idle => False
  | .reading ν _ => ν = μ
  | .undoing ν _ => ν = μ
  | .sleeping ν _ => ν = μ

@[simp, grind =] def Pc.timeout : Pc nproc → Option Nat
  | .reading _ (.lock timeout) => some timeout
  | .undoing _ (.lock timeout) => some timeout
  | .sleeping _ timeout => some timeout
  | _ => none

/-- Added are the values of the holder and of the contenders. The back-off is never 0,
so `rand() % timeout` is defined. -/
structure Placed (s : State nproc) : Prop where
  added_iff : ∀ μ p, s.added μ p = true ↔ s.held μ p = true ∨ (s.pc p).contends μ
  apart : ∀ μ p, s.held μ p = true → ¬ (s.pc p).on μ
  tried : ∀ p μ ret, s.tried p = some (μ, ret) →
    s.pc p = .idle ∧ (ret = 0 ↔ s.held μ p = true)
  timeout : ∀ p n, (s.pc p).timeout = some n → 0 < n ∧ n ≤ maxTimeout

theorem lockVal_pos (p : Fin nproc) : 0 < lockVal p := by
  unfold lockVal
  omega

theorem backOff_range (h : 0 < n) (reset : Bool) :
    0 < backOff n reset ∧ backOff n reset ≤ maxTimeout := by
  unfold backOff timeoutMul maxTimeout
  split <;> omega

theorem Placed.next (hi : Placed s) (h : Does s t) : Placed t := by
  obtain ⟨hadded, hapart, htried, htimeout⟩ := hi
  cases h with
  | @call p μ c hpc hh hc =>
    refine ⟨fun ν q => ?_, fun ν q => ?_, fun q ν ret => ?_, fun q n => ?_⟩ <;> grind [maxTimeout]
  | @again p μ timeout reset hpc =>
    have hrange := backOff_range (htimeout p timeout (by simp [hpc])).1 reset
    refine ⟨fun ν q => ?_, fun ν q => ?_, fun q ν ret => ?_, fun q n => ?_⟩ <;> grind
  | abort hpc hne => exact ⟨hadded, hapart, htried, htimeout⟩
  | @enter p μ c hpc hw =>
    refine ⟨fun ν q => ?_, fun ν q => ?_, fun q ν ret => ?_, fun q n => ?_⟩ <;> grind
  | @miss p μ c hpc =>
    have hsame : (Pc.undoing μ c).timeout = (Pc.reading μ c).timeout := by cases c <;> rfl
    refine ⟨fun ν q => ?_, fun ν q => ?_, fun q ν ret => ?_, fun q n => ?_⟩ <;> grind
  | @back p μ timeout hpc =>
    refine ⟨fun ν q => ?_, fun ν q => ?_, fun q ν ret => ?_, fun q n => ?_⟩ <;> grind
  | @fail p μ hpc =>
    refine ⟨fun ν q => ?_, fun ν q => ?_, fun q ν ret => ?_, fun q n => ?_⟩ <;> grind
  | @leave p μ hpc hh =>
    refine ⟨fun ν q => ?_, fun ν q => ?_, fun q ν ret => ?_, fun q n => ?_⟩ <;> grind

def Summed (s : State nproc) : Prop := ∀ μ, s.word μ = weight lockVal (s.added μ)

theorem Summed.add (h : Summed s) (hp : s.added μ p = false) : Summed (s.add p μ) := by
  intro ν
  by_cases hν : ν = μ
  · subst hν
    have hsum := weight_update lockVal (s.added ν) p true
    simp only [hp, Bool.false_eq_true, if_false, if_true, Int.add_zero] at hsum
    simp only [State.add, Function.update_self, hsum, h ν]
  · simpa [State.add, hν] using h ν

theorem Summed.undo (h : Summed s) (hp : s.added μ p = true) : Summed (s.undo p μ) := by
  intro ν
  by_cases hν : ν = μ
  · subst hν
    have hsum := weight_update lockVal (s.added ν) p false
    simp only [hp, Bool.false_eq_true, if_false, if_true, Int.add_zero] at hsum
    simp only [State.undo, Function.update_self, h ν, ← hsum, unlockVal, lockVal]
    omega
  · simpa [State.undo, hν] using h ν

theorem Summed.congr (h : Summed s) (hw : t.word = s.word) (ha : t.added = s.added) : Summed t := by
  intro ν
  rw [hw, ha]
  exact h ν

theorem Placed.summed (hi : Placed s) (hs : Summed s) (h : Does s t) : Summed t := by
  cases h with
  | @call p μ c hpc hh hc =>
    have hp : s.added μ p = false := by grind [hi.added_iff μ p]
    exact (Summed.add (s := s.setTried p none) (hs.congr rfl rfl) hp).congr rfl rfl
  | @again p μ timeout reset hpc =>
    have hout : ¬ s.held μ p = true := fun hh => hi.apart μ p hh (by simp [hpc])
    have hp : s.added μ p = false := by grind [hi.added_iff μ p]
    exact (hs.add hp).congr rfl rfl
  | abort hpc hne => exact hs.congr rfl rfl
  | @enter p μ c hpc hw => exact hs.congr (by cases c <;> rfl) (by cases c <;> rfl)
  | miss hpc => exact hs.congr rfl rfl
  | @back p μ timeout hpc =>
    have hp : s.added μ p = true := by grind [hi.added_iff μ p]
    exact (hs.undo hp).congr rfl rfl
  | @fail p μ hpc =>
    have hp : s.added μ p = true := by grind [hi.added_iff μ p]
    exact (hs.undo hp).congr rfl rfl
  | @leave p μ hpc hh =>
    have hp : s.added μ p = true := by grind [hi.added_iff μ p]
    exact (Summed.undo (s := s.setTried p none) (hs.congr rfl rfl) hp).congr rfl rfl

structure Inv (s : State nproc) : Prop extends Placed s where
  word : Summed s
  one : ∀ μ p q, s.held μ p = true → s.held μ q = true → p = q

/-- A process that reads its own value is the only one that has added. -/
theorem Inv.alone (hi : Inv s) (hpc : s.pc p = .reading μ c) (hw : s.word μ = p + 1)
    (hq : s.added μ q = true) : q = p := by
  have hp : s.added μ p = true := (hi.added_iff μ p).mpr (.inr (by simp [hpc]))
  refine eq_of_weight_le lockVal_pos hp ?_ hq
  rw [← hi.word μ, hw]
  exact Int.le_refl _

theorem Inv.next (hi : Inv s) (h : Does s t) : Inv t := by
  refine ⟨hi.toPlaced.next h, hi.toPlaced.summed hi.word h, fun ν q r hq hr => ?_⟩
  have hone := hi.one ν q r
  cases h with
  | @enter p μ c hpc hw =>
    have halone := fun q hq => hi.alone hpc hw (q := q) ((hi.added_iff μ q).mpr (.inl hq))
    grind
  | @leave p μ hpc hh => grind
  | @call p μ c hpc hh hc => exact hone hq hr
  | @again p μ timeout reset hpc => exact hone hq hr
  | abort hpc hne => exact hone hq hr
  | miss hpc => exact hone hq hr
  | @back p μ timeout hpc => exact hone hq hr
  | @fail p μ hpc => exact hone hq hr

theorem inv_of_reachable (h : (system nproc).Reachable s) : Inv s := by
  refine h.invariant ?_ fun s a t _ hi hn => hi.next (next_does hn)
  rintro s rfl
  refine ⟨⟨?_, ?_, ?_, ?_⟩, fun μ => ?_, ?_⟩
  all_goals simp [State.init, weight]

-- ------------------------------
-- The assertions
-- ------------------------------

theorem sum_lockVal (nproc : Nat) : (∑ p : Fin nproc, lockVal p) * 2 = nproc * (nproc + 1) := by
  have h := Finset.sum_range_id_mul_two (nproc + 1)
  rw [Finset.sum_range_succ'] at h
  have hcast : ∑ p : Fin nproc, lockVal p = ((∑ i ∈ Finset.range nproc, (i + 1) : Nat) : Int) := by
    rw [Finset.sum_range]
    push_cast
    rfl
  rw [hcast, Int.mul_comm (nproc : Int)]
  simp only [Nat.add_zero, Nat.add_sub_cancel] at h
  exact_mod_cast h

theorem lockBound_eq (h : (nproc * (nproc + 1) : Int) ≤ intMax) :
    lockBound nproc = ∑ p : Fin nproc, lockVal p := by
  have hsum := sum_lockVal nproc
  have hnonneg : (0 : Int) ≤ nproc * (nproc + 1) := Int.mul_nonneg (by omega) (by omega)
  have hsucc : i32 (nproc + 1) = nproc + 1 := by
    refine i32_of_range (by omega) ?_
    rcases Nat.eq_zero_or_pos nproc with rfl | hpos
    · decide
    · have : (1 * (nproc + 1) : Int) ≤ nproc * (nproc + 1) :=
        Int.mul_le_mul_of_nonneg_right (by omega) (by omega)
      omega
  rw [lockBound, hsucc, i32_of_range hnonneg h, ← hsum]
  exact Int.mul_tdiv_cancel _ (by decide)

theorem lockBound_lt (h : intMax < (nproc * (nproc + 1) : Int)) :
    lockBound nproc < ∑ p : Fin nproc, lockVal p := by
  have hsum := sum_lockVal nproc
  have hle := i32_le (nproc * i32 (nproc + 1))
  unfold lockBound
  unfold intMax at h hle
  rcases Int.le_total 0 (i32 (nproc * i32 (nproc + 1))) with hx | hx
  · rw [Int.tdiv_eq_ediv_of_nonneg hx]
    omega
  · have hneg := Int.tdiv_nonneg (Int.neg_nonneg_of_nonpos hx) (b := 2) (by decide)
    rw [Int.neg_tdiv] at hneg
    omega

structure Safe (s : State nproc) : Prop where
  word : ∀ μ, s.word μ = ∑ p, if s.added μ p then (p : Int) + 1 else 0
  exclusive : ∀ μ p q, s.held μ p = true → s.held μ q = true → p = q
  failed : ∀ p μ ret, s.tried p = some (μ, ret) → ret ≠ 0 → s.added μ p = false
  asserted : s.aborted = false

theorem Inv.asserted (hi : Inv s) (h : (nproc * (nproc + 1) : Int) ≤ intMax)
    (hpc : s.pc p = .reading μ c) : 0 < s.word μ ∧ s.word μ ≤ lockBound nproc := by
  have hp : s.added μ p = true := (hi.added_iff μ p).mpr (.inr (by simp [hpc]))
  rw [hi.word μ, lockBound_eq h]
  exact ⟨Int.lt_of_lt_of_le (lockVal_pos p) (le_weight lockVal_pos hp), weight_le lockVal_pos _⟩

theorem safe_of_reachable (h : (nproc * (nproc + 1) : Int) ≤ intMax)
    (hs : (system nproc).Reachable s) : Safe s := by
  have hi := inv_of_reachable hs
  refine ⟨hi.word, hi.one, fun p μ ret ht hret => ?_, ?_⟩
  · obtain ⟨hpc, hheld⟩ := hi.tried p μ ret ht
    grind [hi.added_iff μ p]
  · refine hs.invariant (I := fun s => s.aborted = false) ?_ fun s a t hs ha hn => ?_
    · rintro s rfl
      rfl
    · cases next_does hn with
      | abort hpc hne => exact absurd ((inv_of_reachable hs).asserted h hpc) hne
      | @enter p μ c hpc hw => cases c <;> exact ha
      | @call p μ c hpc hh hc => exact ha
      | @again p μ timeout reset hpc => exact ha
      | miss hpc => exact ha
      | @back p μ timeout hpc => exact ha
      | @fail p μ hpc => exact ha
      | @leave p μ hpc hh => exact ha

theorem exists_contenders (μ : MutexId nproc) (ps : List (Fin nproc)) (hnd : ps.Nodup) :
    ∃ s, (system nproc).Reachable s ∧ s.aborted = false ∧
      (∀ p ∈ ps, s.pc p = .reading μ (.lock 1)) ∧
      ∀ p ∉ ps, s.pc p = .idle ∧ s.held μ p = false := by
  induction ps with
  | nil => exact ⟨.init, .init rfl, rfl, nofun, fun p _ => ⟨rfl, rfl⟩⟩
  | cons q ps ih =>
    obtain ⟨hq, hnd⟩ := List.nodup_cons.mp hnd
    obtain ⟨s, hs, ha, hin, hout⟩ := ih hnd
    have hn : (system nproc).next s (.lock q μ) =
        some (((s.setTried q none).add q μ).setPc q (.reading μ (.lock 1))) := by
      simp [system, next, ha, hout q hq]
    refine ⟨_, .step hs hn, ha, fun p hp => ?_, fun p hp => ?_⟩
    · grind
    · grind

/-- If the product overflows, a process that reads the word when all have added their
values fails the assertion. -/
theorem exists_aborted (h : intMax < (nproc * (nproc + 1) : Int)) :
    ∃ s, (system nproc).Reachable s ∧ s.aborted = true := by
  have hpos : 0 < nproc := by
    rcases Nat.eq_zero_or_pos nproc with rfl | hpos
    · exact absurd h (by decide)
    · exact hpos
  let μ : MutexId nproc := ⟨0, ⟨0, hpos⟩⟩
  obtain ⟨s, hs, ha, hin, -⟩ := exists_contenders μ (List.finRange nproc) (List.nodup_finRange nproc)
  have hi := inv_of_reachable hs
  have hadded : ∀ p, s.added μ p = true := fun p =>
    (hi.added_iff μ p).mpr (.inr (by simp [hin p (List.mem_finRange p)]))
  have hword : lockBound nproc < s.word μ := by
    simp only [hi.word μ, weight, hadded, if_true]
    exact lockBound_lt h
  have hn : (system nproc).next s (.go ⟨0, hpos⟩ false) = some { s with aborted := true } := by
    have hne : ¬ (0 < s.word μ ∧ s.word μ ≤ lockBound nproc) := by omega
    simp only [system, next, ha, hin _ (List.mem_finRange _), go, State.read, hne]
    simp
  exact ⟨_, .step hs hn, rfl⟩

/-- Every run is safe exactly if `nproc*(nproc+1)` is an `int`. -/
theorem safe_iff (nproc : Nat) :
    (∀ s, (system nproc).Reachable s → Safe s) ↔ (nproc * (nproc + 1) : Int) ≤ intMax := by
  refine ⟨fun hsafe => ?_, fun h s hs => safe_of_reachable h hs⟩
  by_contra hover
  obtain ⟨s, hs, habort⟩ := exists_aborted (Int.not_le.mp hover)
  rw [(hsafe s hs).asserted] at habort
  cases habort

/-- With 46341 processes the first one to lock a free mutex fails the assertion. -/
theorem first_lock_aborts : ((system 46341).run State.init
    [.lock 0 ⟨0, 0⟩, .go 0 false]).map State.aborted = some true := by
  decide +kernel

end ArmciMpi.Mutex.Spin
