import ArmciMpi.Lib.Transition
import ArmciMpi.Mpi.Types

/-!
# Group creation without the rest of the parent

`ARMCI_Group_create_comm_noncollective` builds a communicator by merging blocks
of the list of members: in the round of `merge_size` every block of that many
members joins its right neighbour. A process only talks to its own block and its
sibling, so the processes are in different rounds at the same time.

A process is modelled by its next call of `MPI_Intercomm_create`. Such calls match
when the leaders of two communicators name each other and all members of both
have arrived; the merge that follows puts the members that pass 0 before those
that pass 1. `noncollective_agrees` says that every schedule ends with what the
collective version gives. Processes are named by their rank in the parent group.
`int` arithmetic is exact in the model.
-/

namespace ArmciMpi.Groups

variable {psize : Nat}

inductive CommId (psize : Nat)
  /-- `MPI_COMM_SELF` of a process. -/
  | self (p : Fin psize)
  /-- Its duplicate. -/
  | dupSelf (p : Fin psize)
  /-- The intercommunicator of the `k`-th merge. -/
  | inter (k : Nat)
  /-- The communicator of the `k`-th merge. -/
  | merged (k : Nat)
  deriving DecidableEq

structure MemberComm (psize : Nat) where
  id : CommId psize
  members : List (Fin psize)
  deriving DecidableEq

/-- `MPI_Group_incl` and `MPI_Comm_create`: the members of the new communicator, or
`MPI_COMM_NULL`. -/
def createCommCollective (pidList : List (Fin psize)) (p : Fin psize) : Option (List (Fin psize)) :=
  if p ∈ pidList then some pidList else none

-- ------------------------------
-- One process
-- ------------------------------

inductive Round (psize : Nat)
  | skip
  | call (remoteLeader : Option (Fin psize)) (high : Bool)
  deriving DecidableEq

/-- The body of the loop up to `MPI_Intercomm_create`. -/
def round (pidList : List (Fin psize)) (grpMe mergeSize : Nat) : Round psize :=
  let gid := grpMe / mergeSize
  if gid % 2 = 0 then
    if (gid + 1) * mergeSize ≥ pidList.length then .skip
    else .call pidList[(gid + 1) * mergeSize]? false
  else .call pidList[(gid - 1) * mergeSize]? true

def nextCall (pidList : List (Fin psize)) (grpMe : Nat) : Nat → Nat → Option Nat
  | 0, _ => none
  | fuel + 1, mergeSize =>
    if mergeSize < pidList.length then
      if round pidList grpMe mergeSize = .skip then nextCall pidList grpMe fuel (mergeSize * 2)
      else some mergeSize
    else none

inductive Local (psize : Nat)
  | merging (mergeSize : Nat) (pgroup : MemberComm psize)
  | returned (comm : Option (MemberComm psize))
  deriving DecidableEq

/-- The loop from `mergeSize` on, up to the next call. `merge_size` doubles, so it has
fewer rounds than members. -/
def loop (pidList : List (Fin psize)) (grpMe mergeSize : Nat) (pgroup : MemberComm psize) :
    Local psize :=
  match nextCall pidList grpMe pidList.length mergeSize with
  | some m => .merging m pgroup
  | none => .returned (some pgroup)

def createCommNoncollective (pidList : List (Fin psize)) (me : Fin psize) : Local psize :=
  match pidList.idxOf? me with
  | none => .returned none
  | some grpMe =>
    if pidList.length = 1 then .returned (some ⟨.dupSelf me, [me]⟩)
    else loop pidList grpMe 1 ⟨.self me, [me]⟩

-- ------------------------------
-- All processes
-- ------------------------------

/-- The processes, the members of the communicators merged so far, and how often each
process freed a communicator. -/
structure State (psize : Nat) where
  loc : Fin psize → Local psize
  created : List (List (Fin psize))
  freed : CommId psize → Fin psize → Nat

def State.init (pidList : List (Fin psize)) : State psize where
  loc := createCommNoncollective pidList
  created := []
  freed _ _ := 0

/-- The arguments of the call a process is in: its communicator, the remote leader and
what it passes to the merge. -/
def State.call (pidList : List (Fin psize)) (s : State psize) (p : Fin psize) :
    Option (MemberComm psize × Option (Fin psize) × Bool) :=
  match s.loc p, pidList.idxOf? p with
  | .merging mergeSize pgroup, some grpMe =>
    match round pidList grpMe mergeSize with
    | .call remoteLeader high => some (pgroup, remoteLeader, high)
    | .skip => none
  | _, _ => none

def State.Calls (pidList : List (Fin psize)) (s : State psize) (p : Fin psize)
    (pgroup : MemberComm psize) (high : Bool) : Prop :=
  (s.call pidList p).map (fun args => (args.1, args.2.2)) = some (pgroup, high)

instance (pidList : List (Fin psize)) (s : State psize) (p : Fin psize) (c : MemberComm psize)
    (high : Bool) : Decidable (s.Calls pidList p c high) :=
  inferInstanceAs (Decidable (_ = _))

/-- What a process does after the merge: it frees the intercommunicator and its old
communicator, and goes on to its next call. -/
def State.leave (pidList : List (Fin psize)) (s : State psize) (pgroup : MemberComm psize)
    (p : Fin psize) : Local psize :=
  match s.loc p, pidList.idxOf? p with
  | .merging mergeSize _, some grpMe => loop pidList grpMe (mergeSize * 2) pgroup
  | l, _ => l

/-- How often a process frees a communicator after the `k`-th merge. -/
def State.frees (s : State psize) (k : Nat) (p : Fin psize) (c : CommId psize) : Nat :=
  match s.loc p with
  | .merging _ pgroupOld =>
    (if c = .inter k then 1 else 0) +
      if pgroupOld.id ≠ .self p ∧ c = pgroupOld.id then 1 else 0
  | .returned _ => 0

def State.merge (pidList : List (Fin psize)) (s : State psize) (low high : MemberComm psize) :
    State psize :=
  let k := s.created.length
  let members := low.members ++ high.members
  { loc := fun p => if p ∈ members then s.leave pidList ⟨.merged k, members⟩ p else s.loc p
    created := s.created ++ [members]
    freed := fun c p => s.freed c p + if p ∈ members then s.frees k p c else 0 }

structure Merge (psize : Nat) where
  low : Fin psize
  high : Fin psize
  deriving DecidableEq

/-- Two calls of `MPI_Intercomm_create` match. -/
def next (pidList : List (Fin psize)) (s : State psize) (a : Merge psize) : Option (State psize) :=
  match s.call pidList a.low, s.call pidList a.high with
  | some (c, remote, _), some (c', remote', _) =>
    if c.members.head? = some a.low ∧ c'.members.head? = some a.high ∧
        remote = some a.high ∧ remote' = some a.low ∧
        (∀ p ∈ c.members, s.Calls pidList p c false) ∧
        ∀ p ∈ c'.members, s.Calls pidList p c' true
    then some (s.merge pidList c c') else none
  | _, _ => none

def system (pidList : List (Fin psize)) : Lib.System (State psize) (Merge psize) where
  init s := s = State.init pidList
  next := next pidList

-- ------------------------------
-- Blocks
-- ------------------------------

/-- The members of block `gid` in the round of `mergeSize`. -/
def block (pidList : List (Fin psize)) (mergeSize gid : Nat) : List (Fin psize) :=
  (pidList.drop (gid * mergeSize)).take mergeSize

section
variable {pidList : List (Fin psize)} {p q : Fin psize} {ms g i j k : Nat}

theorem mem_block (hms : 0 < ms) :
    p ∈ block pidList ms g ↔ ∃ i, pidList[i]? = some p ∧ i / ms = g := by
  rw [block, List.mem_iff_getElem?]
  constructor
  · rintro ⟨j, hj⟩
    rw [List.getElem?_take] at hj
    split at hj
    · rename_i hlt
      rw [List.getElem?_drop] at hj
      refine ⟨g * ms + j, hj, ?_⟩
      rw [Nat.mul_comm, Nat.mul_add_div hms, Nat.div_eq_of_lt hlt, Nat.add_zero]
    · cases hj
  · rintro ⟨i, hi, rfl⟩
    refine ⟨i % ms, ?_⟩
    rw [List.getElem?_take, if_pos (Nat.mod_lt i hms), List.getElem?_drop, Nat.mul_comm,
      Nat.div_add_mod, hi]

theorem block_head (hms : 0 < ms) : (block pidList ms g).head? = pidList[g * ms]? := by
  rw [block, List.head?_take, if_neg (by omega), List.head?_drop]

theorem block_merge (pidList : List (Fin psize)) (ms : Nat) (hg : g % 2 = 0) :
    block pidList ms g ++ block pidList ms (g + 1) = block pidList (ms * 2) (g / 2) := by
  have hstart : g / 2 * (ms * 2) = g * ms := by
    rw [Nat.mul_comm ms, ← Nat.mul_assoc, Nat.div_mul_cancel (Nat.dvd_of_mod_eq_zero hg)]
  rw [block, block, block, hstart, Nat.mul_two, List.take_add, List.drop_drop, Nat.succ_mul]

theorem block_eq_nil (h : pidList.length ≤ g * ms) : block pidList ms g = [] := by
  rw [block, List.drop_eq_nil_of_le h, List.take_nil]

theorem block_all (h : pidList.length ≤ ms) : block pidList ms 0 = pidList := by
  rw [block, Nat.zero_mul, List.drop_zero, List.take_of_length_le h]

-- ------------------------------
-- Rounds without a call
-- ------------------------------

theorem round_eq_skip : round pidList i ms = .skip ↔
    i / ms % 2 = 0 ∧ pidList.length ≤ (i / ms + 1) * ms := by
  simp only [round]
  split
  · rename_i heven
    split
    · rename_i hle
      exact ⟨fun _ => ⟨heven, hle⟩, fun _ => rfl⟩
    · rename_i hle
      exact ⟨fun h => (by cases h), fun h => absurd h.2 hle⟩
  · rename_i hodd
    exact ⟨fun h => (by cases h), fun h => absurd h.1 hodd⟩

theorem round_eq_low {remote : Option (Fin psize)} (h : round pidList i ms = .call remote false) :
    i / ms % 2 = 0 ∧ (i / ms + 1) * ms < pidList.length ∧
      remote = pidList[(i / ms + 1) * ms]? := by
  simp only [round] at h
  split at h
  · split at h
    · cases h
    · cases h
      exact ⟨‹_›, Nat.not_le.mp ‹_›, rfl⟩
  · cases h

theorem round_eq_high {remote : Option (Fin psize)} (h : round pidList i ms = .call remote true) :
    i / ms % 2 = 1 ∧ remote = pidList[(i / ms - 1) * ms]? := by
  simp only [round] at h
  split at h
  · split at h <;> cases h
  · cases h
    exact ⟨by omega, rfl⟩

/-- From round `k` to round `k'` the block of a member stays the same. -/
structure Widens (pidList : List (Fin psize)) (i k k' : Nat) : Prop where
  le : k ≤ k'
  same : ∀ j, j < pidList.length → j / 2 ^ k' = i / 2 ^ k' → j / 2 ^ k = i / 2 ^ k
  block_eq : block pidList (2 ^ k') (i / 2 ^ k') = block pidList (2 ^ k) (i / 2 ^ k)

theorem Widens.refl (i k : Nat) : Widens pidList i k k := ⟨Nat.le_refl k, fun _ _ h => h, rfl⟩

theorem Widens.trans {k₁ k₂ k₃ : Nat} (h : Widens pidList i k₁ k₂) (h' : Widens pidList i k₂ k₃) :
    Widens pidList i k₁ k₃ :=
  ⟨h.le.trans h'.le, fun j hj heq => h.same j hj (h'.same j hj heq), h'.block_eq.trans h.block_eq⟩

theorem div_pow_succ (i k : Nat) : i / 2 ^ (k + 1) = i / 2 ^ k / 2 := by
  rw [Nat.pow_succ, Nat.div_div_eq_div_mul]

theorem widens_of_skip (h : round pidList i (2 ^ k) = .skip) : Widens pidList i k (k + 1) := by
  obtain ⟨heven, hle⟩ := round_eq_skip.mp h
  refine ⟨Nat.le_succ k, fun j hj heq => ?_, ?_⟩
  · rw [div_pow_succ, div_pow_succ] at heq
    have hlt : j / 2 ^ k < i / 2 ^ k + 1 := Nat.div_lt_of_lt_mul (by
      rw [Nat.mul_comm]
      omega)
    omega
  · have hmerge := block_merge pidList (2 ^ k) heven
    rw [block_eq_nil hle, List.append_nil] at hmerge
    rw [div_pow_succ, Nat.pow_succ, ← hmerge]

theorem nextCall_spec (i : Nat) {fuel : Nat} (hfuel : pidList.length ≤ 2 ^ k + fuel) :
    (∃ k', nextCall pidList i fuel (2 ^ k) = some (2 ^ k') ∧ Widens pidList i k k' ∧
      2 ^ k' < pidList.length ∧ round pidList i (2 ^ k') ≠ .skip) ∨
    ∃ k', nextCall pidList i fuel (2 ^ k) = none ∧ Widens pidList i k k' ∧
      pidList.length ≤ 2 ^ k' := by
  induction fuel generalizing k with
  | zero => exact .inr ⟨k, rfl, .refl i k, hfuel⟩
  | succ fuel ih =>
    rw [nextCall]
    split
    · rename_i hlt
      split
      · rename_i hskip
        have hpos : 0 < 2 ^ k := Nat.two_pow_pos k
        rw [← Nat.pow_succ]
        have hw := widens_of_skip hskip
        rcases ih (k := k + 1) (by rw [Nat.pow_succ]; omega) with
          ⟨k', hsome, hw', hrest⟩ | ⟨k', hnone, hw', hrest⟩
        · exact .inl ⟨k', hsome, hw.trans hw', hrest⟩
        · exact .inr ⟨k', hnone, hw.trans hw', hrest⟩
      · rename_i hcall
        exact .inl ⟨k, rfl, .refl i k, hlt, hcall⟩
    · rename_i hge
      exact .inr ⟨k, rfl, .refl i k, Nat.not_lt.mp hge⟩

theorem nextCall_congr {fuel : Nat} (h : j / 2 ^ k = i / 2 ^ k) :
    nextCall pidList j fuel (2 ^ k) = nextCall pidList i fuel (2 ^ k) := by
  induction fuel generalizing k with
  | zero => rfl
  | succ fuel ih =>
    have hround : round pidList j (2 ^ k) = round pidList i (2 ^ k) := by simp only [round, h]
    have hnext := ih (k := k + 1) (by rw [div_pow_succ, div_pow_succ, h])
    rw [nextCall, nextCall, hround, ← Nat.pow_succ, hnext]

-- ------------------------------
-- Where a member stands
-- ------------------------------

/-- A member with index `i` is in the round of `2 ^ k` with its communicator, or it has
returned it and the round would cover the list. -/
def Stands (pidList : List (Fin psize)) (i k : Nat) (c : MemberComm psize) : Local psize → Prop
  | .merging ms pgroup =>
    ms = 2 ^ k ∧ pgroup = c ∧ ms < pidList.length ∧ round pidList i ms ≠ .skip
  | .returned (some pgroup) => pgroup = c ∧ pidList.length ≤ 2 ^ k
  | .returned none => False

theorem loop_stands (pidList : List (Fin psize)) (i k : Nat) (c : MemberComm psize) :
    ∃ k', Stands pidList i k' c (loop pidList i (2 ^ k) c) ∧ Widens pidList i k k' := by
  rw [loop]
  have hfuel : pidList.length ≤ 2 ^ k + pidList.length := Nat.le_add_left ..
  rcases nextCall_spec i hfuel with ⟨k', hsome, hw, hlt, hcall⟩ | ⟨k', hnone, hw, hle⟩
  · rw [hsome]
    exact ⟨k', ⟨rfl, rfl, hlt, hcall⟩, hw⟩
  · rw [hnone]
    exact ⟨k', ⟨rfl, hle⟩, hw⟩

theorem loop_congr (c : MemberComm psize) (h : j / 2 ^ k = i / 2 ^ k) :
    loop pidList j (2 ^ k) c = loop pidList i (2 ^ k) c := by
  rw [loop, loop, nextCall_congr h]

-- ------------------------------
-- What holds in every state
-- ------------------------------

/-- Every member stands in a round with the communicator of its block, like all members of
the block; the others have returned `MPI_COMM_NULL`. -/
structure Inv (pidList : List (Fin psize)) (s : State psize) : Prop where
  outside : ∀ p, p ∉ pidList → s.loc p = .returned none
  stands : ∀ i p, pidList[i]? = some p → ∃ k c, Stands pidList i k c (s.loc p) ∧
    c.members = block pidList (2 ^ k) (i / 2 ^ k) ∧
    ∀ j q, pidList[j]? = some q → j / 2 ^ k = i / 2 ^ k → s.loc q = s.loc p

variable {s t : State psize} {c : MemberComm psize}

theorem inv_init (hnd : pidList.Nodup) : Inv pidList (State.init pidList) := by
  constructor
  · intro p hp
    have hnone : pidList.idxOf? p = none := List.idxOf?_eq_none_iff.mpr hp
    simp only [State.init, createCommNoncollective, hnone]
  · intro i p hp
    have hidx : ∀ j q, pidList[j]? = some q → pidList.idxOf? q = some j := fun j q hq =>
      (idxOf?_eq_some_iff_getElem? hnd).mpr hq
    have hlt : ∀ j q, pidList[j]? = some q → j < pidList.length := fun j q hq =>
      (List.getElem?_eq_some_iff.mp hq).1
    by_cases hone : pidList.length = 1
    · have hloc : (State.init pidList).loc p = .returned (some ⟨.dupSelf p, [p]⟩) := by
        simp only [State.init, createCommNoncollective, hidx i p hp, if_pos hone]
      have hi := hlt i p hp
      have hzero : i = 0 := by omega
      subst hzero
      refine ⟨0, ⟨.dupSelf p, [p]⟩, by rw [hloc]; exact ⟨rfl, hone.le⟩, ?_, fun j q hq _ => ?_⟩
      · obtain ⟨q, rfl⟩ := List.length_eq_one_iff.mp hone
        cases hp
        rfl
      · have hj : j = 0 := by
          have := hlt j q hq
          omega
        subst hj
        rw [Option.some.inj (hq.symm.trans hp)]
    · have hloc : ∀ j q, pidList[j]? = some q →
          (State.init pidList).loc q = loop pidList j (2 ^ 0) ⟨.self q, [q]⟩ := fun j q hq => by
        simp only [State.init, createCommNoncollective, hidx j q hq, if_neg hone]
        rfl
      obtain ⟨k, hst, hw⟩ := loop_stands pidList i 0 ⟨.self p, [p]⟩
      refine ⟨k, _, hloc i p hp ▸ hst, ?_, fun j q hq heq => ?_⟩
      · rw [hw.block_eq, block, Nat.pow_zero, Nat.div_one, Nat.mul_one]
        obtain ⟨hi, rfl⟩ := List.getElem?_eq_some_iff.mp hp
        rw [List.drop_eq_getElem_cons hi]
        rfl
      · have hji := hw.same j (hlt j q hq) heq
        rw [Nat.pow_zero, Nat.div_one, Nat.div_one] at hji
        subst hji
        rw [Option.some.inj (hq.symm.trans hp)]

theorem call_eq_some (hnd : pidList.Nodup) {remote : Option (Fin psize)} {high : Bool} :
    s.call pidList p = some (c, remote, high) ↔ ∃ i ms, pidList[i]? = some p ∧
      s.loc p = .merging ms c ∧ round pidList i ms = .call remote high := by
  rw [State.call]
  constructor
  · intro h
    split at h
    · rename_i ms c' i hloc hidx
      split at h
      · rename_i remote' high' hround
        cases h
        exact ⟨i, ms, (idxOf?_eq_some_iff_getElem? hnd).mp hidx, hloc, hround⟩
      · cases h
    · cases h
  · rintro ⟨i, ms, hp, hloc, hround⟩
    simp only [hloc, (idxOf?_eq_some_iff_getElem? hnd).mpr hp, hround]

structure Siblings (pidList : List (Fin psize)) (s : State psize) (k g : Nat)
    (low high : MemberComm psize) : Prop where
  even : g % 2 = 0
  lt : (g + 1) * 2 ^ k < pidList.length
  low_members : low.members = block pidList (2 ^ k) g
  high_members : high.members = block pidList (2 ^ k) (g + 1)
  low_loc : ∀ p ∈ low.members, s.loc p = .merging (2 ^ k) low
  high_loc : ∀ p ∈ high.members, s.loc p = .merging (2 ^ k) high

theorem Inv.block_of_call (hi : Inv pidList s) (hp : pidList[i]? = some p)
    (hloc : s.loc p = .merging ms c) : ∃ k, ms = 2 ^ k ∧ ms < pidList.length ∧
      round pidList i ms ≠ .skip ∧ c.members = block pidList (2 ^ k) (i / 2 ^ k) ∧
      ∀ q ∈ c.members, s.loc q = .merging ms c := by
  obtain ⟨k, c', hst, hmem, hall⟩ := hi.stands i p hp
  rw [hloc] at hst
  obtain ⟨rfl, rfl, hlt, hcall⟩ := hst
  refine ⟨k, rfl, hlt, hcall, hmem, fun q hq => ?_⟩
  rw [hmem] at hq
  obtain ⟨j, hj, hjk⟩ := (mem_block (Nat.two_pow_pos k)).mp hq
  rw [hall j q hj hjk, hloc]

theorem index_unique (hnd : pidList.Nodup) (hi : pidList[i]? = some p) (hj : pidList[j]? = some p) :
    i = j := by
  have h := (idxOf?_eq_some_iff_getElem? hnd).mpr hi
  rw [(idxOf?_eq_some_iff_getElem? hnd).mpr hj] at h
  exact (Option.some.inj h).symm

theorem leader_index (hnd : pidList.Nodup) (hms : 0 < ms) (hp : pidList[i]? = some p)
    (hhead : (block pidList ms (i / ms)).head? = some p) : i / ms * ms = i := by
  rw [block_head hms] at hhead
  exact index_unique hnd hhead hp

theorem calls_flag (hcall : s.call pidList p = some (c, remote, high))
    (h : s.Calls pidList p c' high') : high = high' := by
  rw [State.Calls, hcall] at h
  exact congrArg Prod.snd (Option.some.inj h)

theorem Inv.next_siblings (hi : Inv pidList s) (hnd : pidList.Nodup) {a : Merge psize}
    (hn : next pidList s a = some t) : ∃ k g low high, Siblings pidList s k g low high ∧
      t = s.merge pidList low high := by
  rw [next] at hn
  split at hn
  · rename_i c remote _ c' remote' _ hlow hhigh
    split at hn
    · rename_i hmatch
      cases hn
      obtain ⟨hhead, hhead', rfl, rfl, hcalls, hcalls'⟩ := hmatch
      obtain rfl := calls_flag hlow (hcalls _ (List.mem_of_mem_head? hhead))
      obtain rfl := calls_flag hhigh (hcalls' _ (List.mem_of_mem_head? hhead'))
      obtain ⟨i, ms, hl, hlloc, hlround⟩ := (call_eq_some hnd).mp hlow
      obtain ⟨j, ms', hr, hrloc, hrround⟩ := (call_eq_some hnd).mp hhigh
      obtain ⟨k, rfl, -, -, hmem, hall⟩ := hi.block_of_call hl hlloc
      obtain ⟨k', rfl, -, -, hmem', hall'⟩ := hi.block_of_call hr hrloc
      obtain ⟨heven, hlt, hremote⟩ := round_eq_low hlround
      obtain ⟨hodd, hremote'⟩ := round_eq_high hrround
      rw [hmem] at hhead
      rw [hmem'] at hhead'
      have hii := leader_index hnd (Nat.two_pow_pos k) hl hhead
      have hjj := leader_index hnd (Nat.two_pow_pos k') hr hhead'
      -- each side names the other, so their blocks are next to each other and of one size
      have hj : (i / 2 ^ k + 1) * 2 ^ k = j := index_unique hnd hremote.symm hr
      have hi' : (j / 2 ^ k' - 1) * 2 ^ k' = i := index_unique hnd hremote'.symm hl
      have hsize : 2 ^ k = 2 ^ k' := by
        have h₁ : j = i + 2 ^ k := by rw [← hj, Nat.succ_mul, hii]
        have hpos : 1 ≤ j / 2 ^ k' := Nat.pos_of_ne_zero fun h => by simp [h] at hodd
        have h₂ : j = i + 2 ^ k' := by
          rw [← hi', ← Nat.succ_mul, Nat.succ_eq_add_one, Nat.sub_add_cancel hpos, hjj]
        omega
      obtain rfl : k = k' := Nat.pow_right_injective (Nat.le_refl 2) hsize
      have hg : j / 2 ^ k = i / 2 ^ k + 1 := by
        rw [← hj, Nat.mul_div_cancel _ (Nat.two_pow_pos k)]
      exact ⟨k, i / 2 ^ k, c, c', ⟨heven, hlt, hmem, hg ▸ hmem', hall, hall'⟩, rfl⟩
    · cases hn
  · cases hn

variable {low high : MemberComm psize}

theorem Siblings.members (hs : Siblings pidList s k g low high) :
    low.members ++ high.members = block pidList (2 ^ (k + 1)) (g / 2) := by
  rw [hs.low_members, hs.high_members, block_merge pidList _ hs.even, Nat.pow_succ]

theorem Siblings.mem_iff (hs : Siblings pidList s k g low high) (hnd : pidList.Nodup)
    (hp : pidList[i]? = some p) :
    p ∈ low.members ++ high.members ↔ i / 2 ^ (k + 1) = g / 2 := by
  rw [hs.members, mem_block (Nat.two_pow_pos _)]
  constructor
  · rintro ⟨j, hj, hg⟩
    rw [index_unique hnd hp hj, hg]
  · exact fun h => ⟨i, hp, h⟩

theorem Siblings.loc (hs : Siblings pidList s k g low high) (hp : p ∈ low.members ++ high.members) :
    ∃ c, (c = low ∨ c = high) ∧ p ∈ c.members ∧ s.loc p = .merging (2 ^ k) c := by
  rcases List.mem_append.mp hp with hp | hp
  · exact ⟨low, .inl rfl, hp, hs.low_loc p hp⟩
  · exact ⟨high, .inr rfl, hp, hs.high_loc p hp⟩

theorem Siblings.merge_loc (hs : Siblings pidList s k g low high) (hnd : pidList.Nodup)
    (hp : pidList[i]? = some p) : (s.merge pidList low high).loc p =
      if i / 2 ^ (k + 1) = g / 2 then loop pidList i (2 ^ (k + 1))
        ⟨.merged s.created.length, low.members ++ high.members⟩
      else s.loc p := by
  simp only [State.merge, hs.mem_iff hnd hp]
  split
  · rename_i hin
    obtain ⟨c, -, -, hloc⟩ := hs.loc ((hs.mem_iff hnd hp).mpr hin)
    simp only [State.leave, hloc, (idxOf?_eq_some_iff_getElem? hnd).mpr hp, Nat.pow_succ]
  · rfl

theorem Inv.merge (hi : Inv pidList s) (hnd : pidList.Nodup)
    (hs : Siblings pidList s k g low high) : Inv pidList (s.merge pidList low high) := by
  constructor
  · intro p hp
    have hnot : p ∉ low.members ++ high.members := by
      rw [hs.members]
      exact fun h => hp (List.mem_of_mem_drop (List.mem_of_mem_take h))
    simp only [State.merge, hnot, if_false]
    exact hi.outside p hp
  · intro i p hp
    rw [hs.merge_loc hnd hp]
    split
    · rename_i hin
      obtain ⟨k', hst, hw⟩ := loop_stands pidList i (k + 1)
        ⟨.merged s.created.length, low.members ++ high.members⟩
      refine ⟨k', _, hst, ?_, fun j q hq heq => ?_⟩
      · rw [hw.block_eq, hin]
        exact hs.members
      · have hji := hw.same j (List.getElem?_eq_some_iff.mp hq).1 heq
        rw [hs.merge_loc hnd hq, if_pos (hji.trans hin), loop_congr _ hji]
    · rename_i hout
      obtain ⟨k₀, c, hst, hmem, hall⟩ := hi.stands i p hp
      refine ⟨k₀, c, hst, hmem, fun j q hq heq => ?_⟩
      rw [hs.merge_loc hnd hq, if_neg fun hin => ?_, hall j q hq heq]
      -- a block is merged as a whole
      obtain ⟨c', -, -, hloc⟩ := hs.loc ((hs.mem_iff hnd hq).mpr hin)
      rw [← hall j q hq heq, hloc] at hst
      obtain rfl := Nat.pow_right_injective (Nat.le_refl 2) hst.1
      refine hout ?_
      rw [div_pow_succ, ← heq, ← div_pow_succ, hin]

theorem reachable_inv (hnd : pidList.Nodup) (h : (system pidList).Reachable s) : Inv pidList s := by
  refine h.invariant (fun _ hs => hs ▸ inv_init hnd) fun s a t _ hi hn => ?_
  obtain ⟨k, g, low, high, hs, rfl⟩ := hi.next_siblings hnd hn
  exact hi.merge hnd hs

-- ------------------------------
-- Progress
-- ------------------------------

theorem calls_of_round (hnd : pidList.Nodup) {remote : Option (Fin psize)} {side : Bool}
    (hp : pidList[i]? = some p) (hloc : s.loc p = .merging ms c)
    (hround : round pidList i ms = .call remote side) : s.Calls pidList p c side := by
  rw [State.Calls, (call_eq_some hnd).mpr ⟨i, ms, hp, hloc, hround⟩]
  rfl

theorem round_low (hg : g % 2 = 0) (hlt : (g + 1) * ms < pidList.length) (hi : i / ms = g) :
    round pidList i ms = .call pidList[(g + 1) * ms]? false := by
  simp only [round, hi, hg, if_true]
  exact if_neg (Nat.not_le.mpr hlt)

theorem round_high (hg : g % 2 = 0) (hi : i / ms = g + 1) :
    round pidList i ms = .call pidList[g * ms]? true := by
  have hodd : (g + 1) % 2 ≠ 0 := by omega
  simp only [round, hi, hodd, if_false, Nat.add_sub_cancel]

theorem Siblings.enabled (hs : Siblings pidList s k g low high) (hnd : pidList.Nodup) :
    ∃ a, next pidList s a = some (s.merge pidList low high) := by
  have hms := Nat.two_pow_pos k
  have hb := hs.lt
  have ha : g * 2 ^ k < pidList.length := by
    rw [Nat.succ_mul] at hb
    omega
  obtain ⟨l, hl⟩ : ∃ l, pidList[g * 2 ^ k]? = some l := ⟨_, List.getElem?_eq_getElem ha⟩
  obtain ⟨r, hr⟩ : ∃ r, pidList[(g + 1) * 2 ^ k]? = some r := ⟨_, List.getElem?_eq_getElem hb⟩
  have hlhead : low.members.head? = some l := by rw [hs.low_members, block_head hms, hl]
  have hrhead : high.members.head? = some r := by rw [hs.high_members, block_head hms, hr]
  have hlow : ∀ i p, pidList[i]? = some p → i / 2 ^ k = g →
      s.loc p = .merging (2 ^ k) low ∧ round pidList i (2 ^ k) = .call (some r) false :=
    fun i p hp hi => ⟨hs.low_loc p (by rw [hs.low_members]; exact (mem_block hms).mpr ⟨i, hp, hi⟩),
      hr ▸ round_low hs.even hb hi⟩
  have hhigh : ∀ i p, pidList[i]? = some p → i / 2 ^ k = g + 1 →
      s.loc p = .merging (2 ^ k) high ∧ round pidList i (2 ^ k) = .call (some l) true :=
    fun i p hp hi => ⟨hs.high_loc p (by rw [hs.high_members]; exact (mem_block hms).mpr ⟨i, hp, hi⟩),
      hl ▸ round_high hs.even hi⟩
  have hcall : s.call pidList l = some (low, some r, false) := (call_eq_some hnd).mpr
    ⟨_, _, hl, hlow _ l hl (Nat.mul_div_cancel _ hms)⟩
  have hcall' : s.call pidList r = some (high, some l, true) := (call_eq_some hnd).mpr
    ⟨_, _, hr, hhigh _ r hr (Nat.mul_div_cancel _ hms)⟩
  refine ⟨⟨l, r⟩, ?_⟩
  simp only [next, hcall, hcall']
  refine if_pos ⟨hlhead, hrhead, trivial, trivial, fun p hp => ?_, fun p hp => ?_⟩
  · rw [hs.low_members] at hp
    obtain ⟨i, hi, hg⟩ := (mem_block hms).mp hp
    exact calls_of_round hnd hi (hlow i p hi hg).1 (hlow i p hi hg).2
  · rw [hs.high_members] at hp
    obtain ⟨i, hi, hg⟩ := (mem_block hms).mp hp
    exact calls_of_round hnd hi (hhigh i p hi hg).1 (hhigh i p hi hg).2

theorem div_pow_of_le {k' : Nat} (hle : k ≤ k') (h : j / 2 ^ k = i / 2 ^ k) :
    j / 2 ^ k' = i / 2 ^ k' := by
  obtain ⟨d, rfl⟩ := Nat.exists_eq_add_of_le hle
  rw [Nat.pow_add, ← Nat.div_div_eq_div_mul, ← Nat.div_div_eq_div_mul, h]

/-- In the earliest round with a call, the members of the sibling are there too. -/
theorem Inv.same_round (hi : Inv pidList s) (hp : pidList[i]? = some p)
    (hloc : s.loc p = .merging (2 ^ k) c)
    (hmin : ∀ q m c', s.loc q = .merging m c' → 2 ^ k ≤ m)
    (hq : pidList[j]? = some q) (heq : j / 2 ^ (k + 1) = i / 2 ^ (k + 1)) :
    ∃ c', s.loc q = .merging (2 ^ k) c' := by
  obtain ⟨k', c', hst, -, hall⟩ := hi.stands j q hq
  -- in a later round the two blocks would already be one
  have hlate : k < k' → s.loc q = s.loc p := fun hlt =>
    (hall i p hp (div_pow_of_le hlt heq).symm).symm
  cases hqloc : s.loc q with
  | merging m c'' =>
    rw [hqloc] at hst hlate
    obtain ⟨rfl, rfl, -, -⟩ := hst
    have hle : k ≤ k' := (Nat.pow_le_pow_iff_right (Nat.le_refl 2)).mp (hmin q _ _ hqloc)
    rcases Nat.lt_or_eq_of_le hle with hlt | rfl
    · rw [hloc] at hlate
      exact ⟨c, hlate hlt⟩
    · exact ⟨c'', rfl⟩
  | returned o =>
    rw [hqloc] at hst hlate
    cases o with
    | none => exact hst.elim
    | some c'' =>
      obtain ⟨k₀, _, hst', -, -⟩ := hi.stands i p hp
      rw [hloc] at hst'
      obtain ⟨-, -, hlt, -⟩ := hst'
      have hlt : k < k' := (Nat.pow_lt_pow_iff_right (Nat.le_refl 2)).mp (hlt.trans_le hst.2)
      have := hlate hlt
      rw [hloc] at this
      cases this

def Unfinished (s : State psize) : Prop := ∃ p ms c, s.loc p = .merging ms c

theorem Inv.exists_siblings (hi : Inv pidList s) (hun : Unfinished s) :
    ∃ k g low high, Siblings pidList s k g low high := by
  classical
  have hex : ∃ m p c, s.loc p = .merging m c := by
    obtain ⟨p, m, c, h⟩ := hun
    exact ⟨m, p, c, h⟩
  obtain ⟨p, c, hloc⟩ := Nat.find_spec hex
  have hmin : ∀ q m c', s.loc q = .merging m c' → Nat.find hex ≤ m := fun q m c' h =>
    Nat.find_le ⟨q, c', h⟩
  have hmem : p ∈ pidList := by
    by_contra hnot
    rw [hi.outside p hnot] at hloc
    cases hloc
  obtain ⟨i, hp⟩ := List.mem_iff_getElem?.mp hmem
  obtain ⟨k, hk, -, hcall, -, -⟩ := hi.block_of_call hp hloc
  rw [hk] at hloc hmin hcall
  have hpos := Nat.two_pow_pos k
  -- the even one of the two blocks
  obtain ⟨g, hg, hgi, hlt⟩ : ∃ g, g % 2 = 0 ∧ i / 2 ^ (k + 1) = g / 2 ∧
      (g + 1) * 2 ^ k < pidList.length := by
    by_cases heven : i / 2 ^ k % 2 = 0
    · refine ⟨i / 2 ^ k, heven, div_pow_succ i k, ?_⟩
      by_contra hge
      exact hcall (round_eq_skip.mpr ⟨heven, Nat.not_lt.mp hge⟩)
    · have hone : 1 ≤ i / 2 ^ k := Nat.pos_of_ne_zero fun h => by simp [h] at heven
      refine ⟨i / 2 ^ k - 1, by omega, by rw [div_pow_succ]; omega, ?_⟩
      rw [Nat.sub_add_cancel hone]
      exact (Nat.div_mul_le_self i (2 ^ k)).trans_lt (List.getElem?_eq_some_iff.mp hp).1
  have hblock : ∀ g', g' / 2 = g / 2 → g' * 2 ^ k < pidList.length →
      ∃ c', c'.members = block pidList (2 ^ k) g' ∧
        ∀ q ∈ c'.members, s.loc q = .merging (2 ^ k) c' := by
    intro g' hg' hlt'
    have hq : pidList[g' * 2 ^ k]? = some _ := List.getElem?_eq_getElem hlt'
    have hdiv : g' * 2 ^ k / 2 ^ k = g' := Nat.mul_div_cancel g' hpos
    obtain ⟨c', hqloc⟩ := hi.same_round hp hloc hmin hq (by rw [div_pow_succ, hdiv, hg', hgi])
    obtain ⟨k', hk', -, -, hmem', hall⟩ := hi.block_of_call hq hqloc
    obtain rfl := Nat.pow_right_injective (Nat.le_refl 2) hk'
    rw [hdiv] at hmem'
    exact ⟨c', hmem', hall⟩
  have hlow : g * 2 ^ k < pidList.length := by
    rw [Nat.succ_mul] at hlt
    omega
  obtain ⟨low, hl, hlall⟩ := hblock g rfl hlow
  obtain ⟨high, hh, hhall⟩ := hblock (g + 1) (by omega) hlt
  exact ⟨k, g, low, high, hg, hlt, hl, hh, hlall, hhall⟩

theorem Inv.progress (hi : Inv pidList s) (hnd : pidList.Nodup) (hun : Unfinished s) :
    ∃ a t, next pidList s a = some t := by
  obtain ⟨k, g, low, high, hs⟩ := hi.exists_siblings hun
  obtain ⟨a, ha⟩ := hs.enabled hnd
  exact ⟨a, _, ha⟩

-- ------------------------------
-- The number of merges
-- ------------------------------

def leads (pidList : List (Fin psize)) (s : State psize) (i : Nat) : Bool :=
  match pidList[i]?.map s.loc with
  | some (.merging ms _) => i % ms = 0
  | some (.returned _) => i = 0
  | none => false

def leaders (pidList : List (Fin psize)) (s : State psize) : Finset Nat :=
  (Finset.range pidList.length).filter (leads pidList s · = true)

theorem leads_eq (hp : pidList[i]? = some p) : leads pidList s i = match s.loc p with
    | .merging ms _ => decide (i % ms = 0)
    | .returned _ => decide (i = 0) := by
  simp only [leads, hp, Option.map_some]
  cases s.loc p <;> rfl

theorem zero_leads (hp : pidList[0]? = some p) : leads pidList s 0 = true := by
  rw [leads_eq hp]
  cases s.loc p <;> simp

theorem Siblings.leads_merge (hs : Siblings pidList s k g low high) (hnd : pidList.Nodup)
    (hp : pidList[i]? = some p) (hin : i / 2 ^ (k + 1) = g / 2)
    (h : leads pidList (s.merge pidList low high) i = true) : i % 2 ^ (k + 1) = 0 := by
  rw [leads_eq hp, hs.merge_loc hnd hp, if_pos hin] at h
  obtain ⟨k', hst, hw⟩ := loop_stands pidList i (k + 1)
    ⟨.merged s.created.length, low.members ++ high.members⟩
  revert h hst
  cases loop pidList i (2 ^ (k + 1)) ⟨.merged s.created.length, low.members ++ high.members⟩ with
  | merging ms c =>
    rintro h ⟨rfl, -⟩
    have hdvd := Nat.dvd_of_mod_eq_zero (of_decide_eq_true h)
    exact Nat.mod_eq_zero_of_dvd ((Nat.pow_dvd_pow 2 hw.le).trans hdvd)
  | returned o =>
    intro h _
    rw [of_decide_eq_true h]
    exact Nat.zero_mod _

theorem Siblings.leaders_ssubset (hs : Siblings pidList s k g low high) (hnd : pidList.Nodup) :
    leaders pidList (s.merge pidList low high) ⊂ leaders pidList s := by
  have hpos := Nat.two_pow_pos k
  have hdiv : (g + 1) * 2 ^ k / 2 ^ k = g + 1 := Nat.mul_div_cancel _ hpos
  have hin : (g + 1) * 2 ^ k / 2 ^ (k + 1) = g / 2 := by
    have := hs.even
    rw [div_pow_succ, hdiv]
    omega
  have hlead : pidList[(g + 1) * 2 ^ k]? = some _ := List.getElem?_eq_getElem hs.lt
  refine (Finset.ssubset_iff_of_subset fun i hi => ?_).mpr ⟨(g + 1) * 2 ^ k, ?_, fun hmem => ?_⟩
  · obtain ⟨hlt, hi⟩ := Finset.mem_filter.mp hi
    have hp : pidList[i]? = some _ := List.getElem?_eq_getElem (Finset.mem_range.mp hlt)
    refine Finset.mem_filter.mpr ⟨hlt, ?_⟩
    by_cases hblock : i / 2 ^ (k + 1) = g / 2
    · have hmod := hs.leads_merge hnd hp hblock hi
      obtain ⟨c, -, -, hloc⟩ := hs.loc ((hs.mem_iff hnd hp).mpr hblock)
      rw [leads_eq hp, hloc]
      have hdvd := (Nat.pow_dvd_pow 2 (Nat.le_succ k)).trans (Nat.dvd_of_mod_eq_zero hmod)
      exact decide_eq_true (Nat.mod_eq_zero_of_dvd hdvd)
    · rw [leads_eq hp, hs.merge_loc hnd hp, if_neg hblock, ← leads_eq hp] at hi
      exact hi
  · refine Finset.mem_filter.mpr ⟨Finset.mem_range.mpr hs.lt, ?_⟩
    obtain ⟨c, -, -, hloc⟩ := hs.loc ((hs.mem_iff hnd hlead).mpr hin)
    rw [leads_eq hlead, hloc]
    exact decide_eq_true (Nat.mul_mod_left _ _)
  · have hmod := hs.leads_merge hnd hlead hin (Finset.mem_filter.mp hmem).2
    have hdvd := Nat.dvd_of_mod_eq_zero hmod
    rw [Nat.pow_succ, Nat.mul_comm (g + 1)] at hdvd
    have heven := hs.even
    have := Nat.dvd_of_mul_dvd_mul_left hpos hdvd
    omega

theorem run_length_le (hnd : pidList.Nodup) {as : List (Merge psize)}
    (hr : (system pidList).run (State.init pidList) as = some t) :
    as.length ≤ pidList.length - 1 := by
  rw [← Lib.System.cost_one hr]
  refine Lib.System.cost_le (fun s m => Inv pidList s ∧ (leaders pidList s).card ≤ m + 1)
    (fun _ => True) (fun s m a t hb _ hn => ?_) ⟨inv_init hnd, ?_⟩ fun _ _ => trivial
  · obtain ⟨hi, hcard⟩ := hb
    obtain ⟨k, g, low, high, hs, rfl⟩ := hi.next_siblings hnd hn
    have hlt := Finset.card_lt_card (hs.leaders_ssubset hnd)
    have hpos : 0 < (leaders pidList (s.merge pidList low high)).card := by
      have hzero : 0 < pidList.length := Nat.pos_of_ne_zero fun h => by
        have := hs.lt
        omega
      exact Finset.card_pos.mpr ⟨0, Finset.mem_filter.mpr ⟨Finset.mem_range.mpr hzero,
        zero_leads (List.getElem?_eq_getElem hzero)⟩⟩
    exact ⟨by omega, hi.merge hnd hs, by omega⟩
  · have hle := Finset.card_filter_le (Finset.range pidList.length)
      (leads pidList (State.init pidList) · = true)
    rw [Finset.card_range] at hle
    exact hle.trans (by omega)

-- ------------------------------
-- Freed communicators
-- ------------------------------

def Local.comm : Local psize → Option (MemberComm psize)
  | .merging _ pgroup => some pgroup
  | .returned comm => comm

/-- The process has the communicator of the `k`-th merge. -/
def State.Has (s : State psize) (k : Nat) (p : Fin psize) : Prop :=
  (s.loc p).comm.map MemberComm.id = some (.merged k)

instance (s : State psize) (k : Nat) (p : Fin psize) : Decidable (s.Has k p) :=
  inferInstanceAs (Decidable (_ = _))

/-- Every member has freed the intercommunicator of a merge once, and its communicator
once it has the next one. -/
structure Freed (s : State psize) : Prop where
  self : ∀ q p, s.freed (.self q) p = 0 ∧ s.freed (.dupSelf q) p = 0
  later : ∀ k p, s.created.length ≤ k → s.freed (.inter k) p = 0 ∧ s.freed (.merged k) p = 0
  inter : ∀ k m p, s.created[k]? = some m → s.freed (.inter k) p = if p ∈ m then 1 else 0
  merged : ∀ k m p, s.created[k]? = some m →
    s.freed (.merged k) p = if p ∈ m ∧ ¬ s.Has k p then 1 else 0
  has : ∀ k p, s.Has k p → ∃ m, s.created[k]? = some m ∧ p ∈ m
  old : ∀ p ms c, s.loc p = .merging ms c → c.id = .self p ∨ ∃ k, c.id = .merged k

theorem loop_comm (i ms : Nat) (c : MemberComm psize) : (loop pidList i ms c).comm = some c := by
  rw [loop]
  split <;> rfl

theorem freed_init (pidList : List (Fin psize)) : Freed (State.init pidList) := by
  have hcomm : ∀ p c, (createCommNoncollective pidList p).comm = some c →
      c.id = .self p ∨ c.id = .dupSelf p := by
    intro p c hc
    rw [createCommNoncollective] at hc
    split at hc
    · cases hc
    · split at hc
      · cases hc
        exact .inr rfl
      · rw [loop_comm] at hc
        cases hc
        exact .inl rfl
  refine ⟨fun _ _ => ⟨rfl, rfl⟩, fun _ _ _ => ⟨rfl, rfl⟩, fun _ _ _ h => ?_, fun _ _ _ h => ?_,
    fun k p h => ?_, fun p ms c h => ?_⟩
  · cases h
  · cases h
  · obtain ⟨c, hc, hid⟩ := Option.map_eq_some_iff.mp h
    rcases hcomm p c hc with heq | heq <;> rw [heq] at hid <;> cases hid
  · have h : createCommNoncollective pidList p = .merging ms c := h
    rw [createCommNoncollective] at h
    split at h
    · cases h
    · split at h
      · cases h
      · have hc := congrArg Local.comm h
        rw [loop_comm] at hc
        cases hc
        exact .inl rfl

theorem merge_loc_out (hp : p ∉ low.members ++ high.members) :
    (s.merge pidList low high).loc p = s.loc p := if_neg hp

theorem Siblings.merge_comm (hs : Siblings pidList s k g low high) (hnd : pidList.Nodup)
    (hp : p ∈ low.members ++ high.members) : ((s.merge pidList low high).loc p).comm =
      some ⟨.merged s.created.length, low.members ++ high.members⟩ := by
  have hmem : p ∈ pidList := by
    rw [hs.members] at hp
    exact List.mem_of_mem_drop (List.mem_of_mem_take hp)
  obtain ⟨i, hi⟩ := List.mem_iff_getElem?.mp hmem
  rw [hs.merge_loc hnd hi, if_pos ((hs.mem_iff hnd hi).mp hp), loop_comm]

theorem Siblings.has_merge (hs : Siblings pidList s k g low high) (hnd : pidList.Nodup)
    (m : Nat) (p : Fin psize) : (s.merge pidList low high).Has m p ↔
      if p ∈ low.members ++ high.members then m = s.created.length else s.Has m p := by
  split
  · rename_i hp
    rw [State.Has, hs.merge_comm hnd hp, Option.map_some, Option.some.injEq, CommId.merged.injEq]
    exact eq_comm
  · rename_i hp
    rw [State.Has, merge_loc_out hp]
    rfl

theorem Siblings.merge_freed (hs : Siblings pidList s k g low high) (c : CommId psize)
    (p : Fin psize) : (∃ old, p ∈ low.members ++ high.members ∧ s.loc p = .merging (2 ^ k) old ∧
        (s.merge pidList low high).freed c p = s.freed c p +
          ((if c = .inter s.created.length then 1 else 0) +
            if old.id ≠ .self p ∧ c = old.id then 1 else 0)) ∨
      (p ∉ low.members ++ high.members ∧ (s.merge pidList low high).freed c p = s.freed c p) := by
  by_cases hp : p ∈ low.members ++ high.members
  · obtain ⟨old, -, -, hloc⟩ := hs.loc hp
    refine .inl ⟨old, hp, hloc, ?_⟩
    simp only [State.merge, if_pos hp, State.frees, hloc]
  · refine .inr ⟨hp, ?_⟩
    simp only [State.merge, if_neg hp, Nat.add_zero]

theorem Freed.old_cases (hf : Freed s) (hloc : s.loc p = .merging ms c) :
    c.id = .self p ∨ ∃ k, c.id = .merged k ∧ k < s.created.length ∧ ∀ k', s.Has k' p ↔ k' = k := by
  rcases hf.old p ms c hloc with hid | ⟨k, hid⟩
  · exact .inl hid
  · have hhas : ∀ k', s.Has k' p ↔ k' = k := by
      intro k'
      rw [State.Has, hloc, Local.comm, Option.map_some, hid, Option.some.injEq, CommId.merged.injEq]
      exact eq_comm
    obtain ⟨m, hm, -⟩ := hf.has k p ((hhas k).mpr rfl)
    exact .inr ⟨k, hid, (List.getElem?_eq_some_iff.mp hm).1, hhas⟩

theorem State.not_has (hloc : s.loc p = .merging ms c) (hid : c.id = .self p) (k : Nat) :
    ¬ s.Has k p := by
  rw [State.Has, hloc, Local.comm, Option.map_some, hid]
  simp

theorem created_merge (n : Nat) (m : List (Fin psize)) :
    (s.merge pidList low high).created[n]? = some m ↔
      (n < s.created.length ∧ s.created[n]? = some m) ∨
        (n = s.created.length ∧ m = low.members ++ high.members) := by
  show (s.created ++ [low.members ++ high.members])[n]? = some m ↔ _
  rcases Nat.lt_trichotomy n s.created.length with hlt | rfl | hgt
  · simp [List.getElem?_append_left hlt, hlt, Nat.ne_of_lt hlt]
  · simp [eq_comm]
  · have hnone : (s.created ++ [low.members ++ high.members])[n]? = none :=
      List.getElem?_eq_none (by simp; omega)
    rw [hnone]
    constructor
    · intro h
      cases h
    · rintro (⟨h, -⟩ | ⟨h, -⟩) <;> omega

theorem Siblings.freed_same (hs : Siblings pidList s k g low high) {c : CommId psize}
    (hc : c ≠ .inter s.created.length)
    (hold : ∀ old, s.loc p = .merging (2 ^ k) old → c = old.id → old.id = .self p) :
    (s.merge pidList low high).freed c p = s.freed c p := by
  rcases hs.merge_freed c p with ⟨old, hp, hloc, hfreed⟩ | ⟨hp, hfreed⟩
  · rw [hfreed, if_neg hc, if_neg fun h => h.1 (hold old hloc h.2)]
    rfl
  · exact hfreed

theorem Freed.old_ne_inter (hf : Freed s) (hloc : s.loc p = .merging ms c) (n : Nat) :
    CommId.inter n ≠ c.id := by
  rcases hf.old_cases hloc with hid | ⟨k₀, hid, -⟩ <;> simp [hid]

theorem Freed.old_ne_created (hf : Freed s) (hloc : s.loc p = .merging ms c) {n : Nat}
    (hn : s.created.length ≤ n) : CommId.merged n ≠ c.id := by
  rcases hf.old_cases hloc with hid | ⟨k₀, hid, hlt, -⟩
  · simp [hid]
  · have hne : n ≠ k₀ := by omega
    simp [hid, hne]

theorem Freed.inter_merge (hf : Freed s) (hs : Siblings pidList s k g low high) {n : Nat}
    {m : List (Fin psize)} (hm : (s.merge pidList low high).created[n]? = some m) (p : Fin psize) :
    (s.merge pidList low high).freed (.inter n) p = if p ∈ m then 1 else 0 := by
  rcases (created_merge n m).mp hm with ⟨hlt, hm⟩ | ⟨rfl, rfl⟩
  · have hne : CommId.inter n ≠ (CommId.inter s.created.length : CommId psize) := by
      simpa using Nat.ne_of_lt hlt
    rw [hs.freed_same hne fun old hloc h => absurd h (hf.old_ne_inter hloc n), hf.inter n m p hm]
  · have hzero := (hf.later _ p (Nat.le_refl _)).1
    rcases hs.merge_freed (.inter s.created.length) p with ⟨old, hp, hloc, hfreed⟩ | ⟨hp, hfreed⟩
    · rw [hfreed, hzero, if_pos rfl, if_neg fun h => hf.old_ne_inter hloc _ h.2, if_pos hp]
    · rw [hfreed, hzero, if_neg hp]

theorem Freed.merged_merge (hf : Freed s) (hnd : pidList.Nodup)
    (hs : Siblings pidList s k g low high) {n : Nat} {m : List (Fin psize)}
    (hm : (s.merge pidList low high).created[n]? = some m) (p : Fin psize) :
    (s.merge pidList low high).freed (.merged n) p =
      if p ∈ m ∧ ¬ (s.merge pidList low high).Has n p then 1 else 0 := by
  have hhas := hs.has_merge hnd n p
  rcases (created_merge n m).mp hm with ⟨hlt, hm⟩ | ⟨rfl, rfl⟩
  · rcases hs.merge_freed (.merged n) p with ⟨old, hp, hloc, hfreed⟩ | ⟨hp, hfreed⟩
    · rw [if_pos hp] at hhas
      have hnot : ¬ (s.merge pidList low high).Has n p := fun h => by
        have := hhas.mp h
        omega
      rw [hfreed, if_neg (by simp), Nat.zero_add, hf.merged n m p hm]
      rcases hf.old_cases hloc with hid | ⟨k₀, hid, -, hk₀⟩
      · simp [hid, hnot, State.not_has hloc hid]
      · by_cases hn : n = k₀
        · subst hn
          have hmem : p ∈ m := by
            obtain ⟨m', hm', hp'⟩ := hf.has n p ((hk₀ n).mpr rfl)
            rwa [Option.some.inj (hm.symm.trans hm')]
          simp [hid, hnot, hk₀, hmem]
        · simp [hid, hnot, hk₀, hn]
    · rw [if_neg hp] at hhas
      rw [hfreed, hf.merged n m p hm]
      simp only [hhas]
  · have hsame : (s.merge pidList low high).freed (.merged s.created.length) p =
        s.freed (.merged s.created.length) p :=
      hs.freed_same (by simp) fun old hloc h =>
        absurd h (hf.old_ne_created hloc (Nat.le_refl _))
    rw [hsame, (hf.later _ p (Nat.le_refl _)).2, if_neg fun h => ?_]
    rw [if_pos h.1] at hhas
    exact h.2 (hhas.mpr rfl)

theorem Freed.merge (hf : Freed s) (hnd : pidList.Nodup) (hs : Siblings pidList s k g low high) :
    Freed (s.merge pidList low high) := by
  refine ⟨fun q p => ?_, fun n p hn => ?_, fun n m p hm => hf.inter_merge hs hm p,
    fun n m p hm => hf.merged_merge hnd hs hm p, fun n p hhas => ?_, fun p ms c hloc => ?_⟩
  · have hold : ∀ old, s.loc p = .merging (2 ^ k) old →
        (.self q = old.id → old.id = .self p) ∧ (.dupSelf q = old.id → old.id = .self p) := by
      intro old hloc
      rcases hf.old_cases hloc with hid | ⟨k₀, hid, -⟩ <;> simp [hid]
    rw [hs.freed_same (by simp) fun old hloc => (hold old hloc).1,
      hs.freed_same (by simp) fun old hloc => (hold old hloc).2]
    exact hf.self q p
  · have hlen : s.created.length + 1 ≤ n := by simpa [State.merge] using hn
    have hne : CommId.inter n ≠ (CommId.inter s.created.length : CommId psize) := by
      simpa using Nat.ne_of_gt hlen
    rw [hs.freed_same hne fun old hloc h => absurd h (hf.old_ne_inter hloc n),
      hs.freed_same (by simp) fun old hloc h => absurd h (hf.old_ne_created hloc (by omega))]
    exact hf.later n p (by omega)
  · have hiff := hs.has_merge hnd n p
    split at hiff
    · rename_i hp
      exact ⟨_, (created_merge n _).mpr (.inr ⟨hiff.mp hhas, rfl⟩), hp⟩
    · obtain ⟨m, hm, hp⟩ := hf.has n p (hiff.mp hhas)
      exact ⟨m, (created_merge n m).mpr (.inl ⟨(List.getElem?_eq_some_iff.mp hm).1, hm⟩), hp⟩
  · by_cases hp : p ∈ low.members ++ high.members
    · have hcomm := hs.merge_comm hnd hp
      rw [hloc] at hcomm
      cases hcomm
      exact .inr ⟨_, rfl⟩
    · rw [merge_loc_out hp] at hloc
      exact hf.old p ms c hloc

theorem reachable_freed (hnd : pidList.Nodup) (h : (system pidList).Reachable s) : Freed s := by
  refine h.invariant (fun _ hs => hs ▸ freed_init pidList) fun s a t hr hf hn => ?_
  obtain ⟨k, g, low, high, hs, rfl⟩ := (reachable_inv hnd hr).next_siblings hnd hn
  exact hf.merge hnd hs

-- ------------------------------
-- Agreement with the collective version
-- ------------------------------

def siblingOf (gid : Nat) : Nat := if gid % 2 = 0 then gid + 1 else gid - 1

structure Agrees (pidList : List (Fin psize)) (s : State psize) : Prop where
  /-- A process in a call has the communicator of its block, all members of the block are in
  the same call, and the call names rank 0 of the sibling, which exists. -/
  rounds : ∀ i p ms c, pidList[i]? = some p → s.loc p = .merging ms c →
    c.members = block pidList ms (i / ms) ∧ (∀ q ∈ c.members, s.loc q = s.loc p) ∧
    block pidList ms (siblingOf (i / ms)) ≠ [] ∧
    s.call pidList p =
      some (c, (block pidList ms (siblingOf (i / ms))).head?, decide (i / ms % 2 = 1))
  /-- Only a left block and its right sibling merge. -/
  merges : ∀ a t, next pidList s a = some t → ∃ ms g low high, g % 2 = 0 ∧
    low.members = block pidList ms g ∧ high.members = block pidList ms (g + 1) ∧
    t = s.merge pidList low high
  /-- Somebody can go on until all have returned. -/
  progress : (∃ p ms c, s.loc p = .merging ms c) → ∃ a t, next pidList s a = some t
  /-- When all have returned, the members have one communicator with the ranks of the
  collective version, and the others have `MPI_COMM_NULL`. -/
  outcome : (¬ ∃ p ms c, s.loc p = .merging ms c) → ∃ c : MemberComm psize, ∀ p, ∃ comm,
    s.loc p = .returned comm ∧
      comm.map MemberComm.members = createCommCollective pidList p ∧ (p ∈ pidList → comm = some c)
  /-- The communicators of every merge were freed once by every member, except the one the
  member still has; nothing else was freed. -/
  frees : (∀ k m p, s.created[k]? = some m → s.freed (.inter k) p = (if p ∈ m then 1 else 0) ∧
      s.freed (.merged k) p = if p ∈ m ∧ ¬ s.Has k p then 1 else 0) ∧
    (∀ k p, s.created.length ≤ k → s.freed (.inter k) p = 0 ∧ s.freed (.merged k) p = 0) ∧
    ∀ q p, s.freed (.self q) p = 0 ∧ s.freed (.dupSelf q) p = 0

theorem Inv.rounds (hi : Inv pidList s) (hnd : pidList.Nodup) (hp : pidList[i]? = some p)
    (hloc : s.loc p = .merging ms c) :
    c.members = block pidList ms (i / ms) ∧ (∀ q ∈ c.members, s.loc q = s.loc p) ∧
      block pidList ms (siblingOf (i / ms)) ≠ [] ∧ s.call pidList p =
        some (c, (block pidList ms (siblingOf (i / ms))).head?, decide (i / ms % 2 = 1)) := by
  obtain ⟨k, rfl, -, hcall, hmem, hall⟩ := hi.block_of_call hp hloc
  have hpos := Nat.two_pow_pos k
  have hne : ∀ g', g' * 2 ^ k < pidList.length → block pidList (2 ^ k) g' ≠ [] := by
    intro g' hlt hnil
    have hhead : (block pidList (2 ^ k) g').head? = pidList[g' * 2 ^ k]? := block_head hpos
    rw [hnil, List.getElem?_eq_getElem hlt] at hhead
    cases hhead
  refine ⟨hmem, fun q hq => (hall q hq).trans hloc.symm, ?_⟩
  rw [block_head hpos, siblingOf]
  by_cases heven : i / 2 ^ k % 2 = 0
  · have hlt : (i / 2 ^ k + 1) * 2 ^ k < pidList.length := by
      by_contra hge
      exact hcall (round_eq_skip.mpr ⟨heven, Nat.not_lt.mp hge⟩)
    rw [if_pos heven, decide_eq_false (by omega)]
    exact ⟨hne _ hlt, (call_eq_some hnd).mpr ⟨i, _, hp, hloc, round_low heven hlt rfl⟩⟩
  · have hone : 1 ≤ i / 2 ^ k := Nat.pos_of_ne_zero fun h => by simp [h] at heven
    have hlt : (i / 2 ^ k - 1) * 2 ^ k < pidList.length :=
      (Nat.mul_le_mul_right _ (Nat.sub_le _ 1)).trans_lt
        ((Nat.div_mul_le_self i (2 ^ k)).trans_lt (List.getElem?_eq_some_iff.mp hp).1)
    rw [if_neg heven, decide_eq_true (by omega)]
    exact ⟨hne _ hlt, (call_eq_some hnd).mpr
      ⟨i, _, hp, hloc, round_high (by omega) (Nat.sub_add_cancel hone).symm⟩⟩

theorem Inv.returned (hi : Inv pidList s) {comm : Option (MemberComm psize)}
    (hloc : s.loc p = .returned comm) :
    comm.map MemberComm.members = createCommCollective pidList p := by
  by_cases hp : p ∈ pidList
  · obtain ⟨i, hp'⟩ := List.mem_iff_getElem?.mp hp
    obtain ⟨k, c, hst, hmem, -⟩ := hi.stands i p hp'
    rw [hloc] at hst
    cases comm with
    | none => exact hst.elim
    | some c' =>
      obtain ⟨rfl, hle⟩ := hst
      have hzero : i / 2 ^ k = 0 :=
        Nat.div_eq_of_lt ((List.getElem?_eq_some_iff.mp hp').1.trans_le hle)
      rw [createCommCollective, if_pos hp, Option.map_some, hmem, hzero, block_all hle]
  · cases hloc.symm.trans (hi.outside p hp)
    rw [createCommCollective, if_neg hp]
    rfl

theorem Inv.outcome (hi : Inv pidList s) (hdone : ¬ Unfinished s) :
    ∃ c : MemberComm psize, ∀ p, ∃ comm, s.loc p = .returned comm ∧
      comm.map MemberComm.members = createCommCollective pidList p ∧
        (p ∈ pidList → comm = some c) := by
  have hmember : ∀ (i : Nat) p, pidList[i]? = some p → ∃ c, s.loc p = .returned (some c) ∧
      ∀ (j : Nat) q, pidList[j]? = some q → s.loc q = s.loc p := by
    intro i p hp
    obtain ⟨k, c, hst, -, hall⟩ := hi.stands i p hp
    cases hloc : s.loc p with
    | merging ms c' => exact absurd ⟨p, ms, c', hloc⟩ hdone
    | returned o =>
      rw [hloc] at hst
      cases o with
      | none => exact hst.elim
      | some c' =>
        have hzero : ∀ j q, pidList[j]? = some q → j / 2 ^ k = 0 := fun j q hq =>
          Nat.div_eq_of_lt ((List.getElem?_eq_some_iff.mp hq).1.trans_le hst.2)
        exact ⟨c', rfl, fun j q hq =>
          (hall j q hq ((hzero j q hq).trans (hzero i p hp).symm)).trans hloc⟩
  by_cases hnil : pidList = []
  · subst hnil
    refine ⟨⟨.inter 0, []⟩, fun p => ?_⟩
    have hloc := hi.outside p List.not_mem_nil
    exact ⟨none, hloc, hi.returned hloc, fun h => absurd h List.not_mem_nil⟩
  · obtain ⟨p₀, rest, hlist⟩ := List.exists_cons_of_ne_nil hnil
    obtain ⟨c, hc, hsame⟩ := hmember 0 p₀ (by rw [hlist]; rfl)
    refine ⟨c, fun p => ?_⟩
    by_cases hp : p ∈ pidList
    · obtain ⟨i, hp'⟩ := List.mem_iff_getElem?.mp hp
      have hloc := (hsame i p hp').trans hc
      exact ⟨some c, hloc, hi.returned hloc, fun _ => rfl⟩
    · have hloc := hi.outside p hp
      exact ⟨none, hloc, hi.returned hloc, fun h => absurd h hp⟩

/-- The noncollective creation does what the collective one does, in every schedule and after
at most `n - 1` merges. -/
theorem noncollective_agrees (hnd : pidList.Nodup) :
    (∀ s, (system pidList).Reachable s → Agrees pidList s) ∧
      ∀ as t, (system pidList).run (State.init pidList) as = some t →
        as.length ≤ pidList.length - 1 := by
  refine ⟨fun s h => ?_, fun as t hr => run_length_le hnd hr⟩
  have hi := reachable_inv hnd h
  have hf := reachable_freed hnd h
  refine ⟨fun i p ms c hp hloc => hi.rounds hnd hp hloc, fun a t hn => ?_, hi.progress hnd,
    hi.outcome, fun k m p hm => ⟨hf.inter k m p hm, hf.merged k m p hm⟩, hf.later, hf.self⟩
  obtain ⟨k, g, low, high, hs, rfl⟩ := hi.next_siblings hnd hn
  exact ⟨2 ^ k, g, low, high, hs.even, hs.low_members, hs.high_members, rfl⟩

end

def threeOfFour : List (Fin 4) := [3, 0, 2]

theorem noncollective_agrees_three : threeOfFour.Nodup ∧ ∃ s,
    (system threeOfFour).run (State.init threeOfFour) [⟨3, 0⟩, ⟨3, 2⟩] = some s ∧
    Agrees threeOfFour s ∧ s.loc 1 = .returned none ∧
    ∀ p ∈ threeOfFour, s.loc p = .returned (some ⟨.merged 1, threeOfFour⟩) := by
  have hr : (system threeOfFour).run (State.init threeOfFour) [⟨3, 0⟩, ⟨3, 2⟩] = some _ := rfl
  exact ⟨by decide, _, hr,
    (noncollective_agrees (by decide)).1 _ (Lib.System.Reachable.run (.init rfl) hr), rfl, by decide⟩

end ArmciMpi.Groups
