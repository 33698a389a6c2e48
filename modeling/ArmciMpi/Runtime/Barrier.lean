import ArmciMpi.Runtime.FreeGroup

/-!
# The barrier

`PARMCI_Barrier` flushes every region on the caller's list and then enters
`MPI_Barrier`. All processes run at once: they create and destroy regions on
their groups, issue operations on the regions they find in their lists, and
walk through their fences one region at a time. An operation may be applied at
its target at any time; a flush applies what its caller has outstanding on the
window, and so does the end of the window's epoch in `gmr_destroy`.

The epoch of an operation is the number of barriers its origin had entered
when it issued it. `barrier_publishes` says that once any process has returned
from its k-th barrier, every operation that some process issued before it
entered its own k-th barrier has been applied. `ARMCII_Sync` at the end of the
barrier only synchronises the two copies of the caller's own windows.
-/

namespace ArmciMpi

open Lib

/-- What the accessors read of a process; the list of regions is passed
separately. -/
def Cluster.env (C : Cluster) (p : Fin C.size) : Env :=
  ⟨C.world p, C.cfg p, [], fun _ _ => 0, by simp⟩

namespace Barrier

variable {C : Cluster}

/-- Where a process is: outside the barrier, in the loop of `PARMCI_AllFence`
with `cur_mreg`, or in `MPI_Barrier`. -/
inductive Phase
  | running
  | fencing (curMreg : Option Nat)
  | waiting
  deriving DecidableEq

structure Op (C : Cluster) where
  id : Nat
  origin : Fin C.size
  rma : Rma
  epoch : Nat
  deriving DecidableEq

/-- `entered` counts the calls of `PARMCI_Barrier`, `arrived` those of
`MPI_Barrier` in them, `returned` the returns. -/
structure State (C : Cluster) where
  regions : Regions.State C
  phase : Fin C.size → Phase
  entered : Fin C.size → Nat
  arrived : Fin C.size → Nat
  returned : Fin C.size → Nat
  issued : List (Op C)
  pending : List (Op C)
  applied : List (Op C)

namespace State

def complete (s : State C) (done : Op C → Bool) : State C :=
  { s with pending := s.pending.filter fun x => !done x
           applied := s.applied ++ s.pending.filter done }

def setPhase (s : State C) (p : Fin C.size) (ph : Phase) : State C :=
  { s with phase := Function.update s.phase p ph }

/-- An operation on the region that `gmr_lookup` finds for the remote address. -/
def issue (s : State C) (p : Fin C.size) (ptr : Int) (proc : Nat) (rma : Rma) :
    Option (State C) :=
  match (s.regions.lists p).lookup ptr proc with
  | .ok (some a) =>
    match (s.regions.lists p).cells a with
    | some c =>
      if c.val.window = some rma.win then
        let x : Op C := ⟨s.issued.length, p, rma, s.entered p⟩
        some { s with issued := s.issued ++ [x], pending := s.pending ++ [x] }
      else none
    | none => none
  | _ => none

/-- One round of the loop in `PARMCI_AllFence`. -/
def flush (s : State C) (p : Fin C.size) (a : Nat) : Option (State C) :=
  match (s.regions.lists p).cells a with
  | some c =>
    match gmrFlushall (C.env p) c.val false [] with
    | (.ok (), acts) =>
      some ((s.complete fun x => x.origin = p ∧ ∃ act ∈ acts, act.Completes .target x.rma).setPhase
        p (.fencing c.next))
    | _ => none
  | none => none

end State

def callGroup : Regions.Call C → AllocGroup
  | .create A => A.group
  | .destroy g _ => g
  | .free g _ => g

inductive Step (C : Cluster)
  | call (c : Regions.Call C)
  | issue (p : Fin C.size) (ptr : Int) (proc : Nat) (rma : Rma)
  | apply (id : Nat)
  | enter (p : Fin C.size)
  | flush (p : Fin C.size)
  | arrive (p : Fin C.size)
  | leave (p : Fin C.size)

def next (s : State C) : Step C → Option (State C)
  | .call c =>
    if ∀ p ∈ C.members (callGroup c).comm, s.phase p = .running then
      (Regions.next s.regions c).map fun t =>
        -- a member that frees a window ends its epoch
        { s.complete fun x => x.origin ∈ C.members (callGroup c).comm ∧
            ∀ R ∈ t.live, R.win ≠ x.rma.win with regions := t }
    else none
  | .issue p ptr proc rma =>
    if s.phase p = .running then s.issue p ptr proc rma else none
  | .apply id => some (s.complete fun x => x.id = id)
  | .enter p =>
    if s.phase p = .running then
      some { s.setPhase p (.fencing (s.regions.lists p).head) with
        entered := Function.update s.entered p (s.entered p + 1) }
    else none
  | .flush p =>
    match s.phase p with
    | .fencing (some a) => s.flush p a
    | _ => none
  | .arrive p =>
    if s.phase p = .fencing none then
      some { s.setPhase p .waiting with
        arrived := Function.update s.arrived p (s.arrived p + 1) }
    else none
  | .leave p =>
    -- everyone has come to the same barrier
    if s.phase p = .waiting ∧ ∀ q, s.arrived p ≤ s.arrived q then
      some { s.setPhase p .running with
        returned := Function.update s.returned p (s.returned p + 1) }
    else none

def start (C : Cluster) : State C :=
  ⟨Regions.start C, fun _ => .running, fun _ => 0, fun _ => 0, fun _ => 0, [], [], []⟩

def system (C : Cluster) : System (State C) (Step C) := ⟨(· = start C), next⟩

-- ------------------------------
-- The invariant
-- ------------------------------

def Covers (s : State C) (p : Fin C.size) (rest : List (Nat × Gmr)) : Prop :=
  ∀ x ∈ s.pending, x.origin = p → ∃ y ∈ rest, y.2.window = some x.rma.win

/-- Where a process is, by its counters and by what it still has to flush. -/
def AtPhase (s : State C) (p : Fin C.size) : Phase → Prop
  | .running => s.entered p = s.arrived p ∧ s.arrived p = s.returned p
  | .fencing cur => s.entered p = s.arrived p + 1 ∧ s.arrived p = s.returned p ∧
      ∃ done rest, (s.regions.lists p).Holds (done ++ rest) ∧ cur = headAddr rest ∧
        Covers s p rest
  | .waiting => s.entered p = s.arrived p ∧ s.arrived p = s.returned p + 1

structure Inv (s : State C) : Prop where
  regions : Regions.Inv s.regions
  /-- Outstanding operations are on live regions of their origin. -/
  live : ∀ x ∈ s.pending, ∃ R ∈ s.regions.on x.origin, R.win = x.rma.win
  phase : ∀ p, AtPhase s p (s.phase p)
  /-- What was issued before an arrival is applied. -/
  arrived : ∀ x ∈ s.pending, s.arrived x.origin ≤ x.epoch
  together : ∀ p q, s.returned p ≤ s.arrived q
  logged : ∀ x ∈ s.issued, x ∈ s.pending ∨ x ∈ s.applied

theorem Inv.start : Inv (start C) where
  regions := .start
  live := by simp [Barrier.start]
  phase _ := ⟨rfl, rfl⟩
  arrived := by simp [Barrier.start]
  together _ _ := Nat.le_refl _
  logged := by simp [Barrier.start]

section
variable {s t : State C}

/-- A process is where it was if nothing about it changes but that operations of
its own are applied. -/
theorem AtPhase.congr (h : AtPhase s p ph) (hlists : t.regions.lists p = s.regions.lists p)
    (hentered : t.entered p = s.entered p) (harrived : t.arrived p = s.arrived p)
    (hreturned : t.returned p = s.returned p)
    (hpending : ∀ x ∈ t.pending, x.origin = p → x ∈ s.pending) : AtPhase t p ph := by
  cases ph with
  | running => simpa [AtPhase, hentered, harrived, hreturned] using h
  | fencing cur =>
    obtain ⟨hent, harr, l, rest, hl, hcur, hcov⟩ := h
    exact ⟨by rw [hentered, harrived]; exact hent, by rw [harrived, hreturned]; exact harr, l, rest,
      by rw [hlists]; exact hl, hcur, fun x hx hxp => hcov x (hpending x hx hxp) hxp⟩
  | waiting => simpa [AtPhase, hentered, harrived, hreturned] using h

theorem phase_update (h : ∀ q, AtPhase s q (s.phase q)) {ph : Phase}
    (hphase : t.phase = Function.update s.phase p ph) (hp : AtPhase t p ph)
    (hother : ∀ q ≠ p, t.regions.lists q = s.regions.lists q ∧ t.entered q = s.entered q ∧
      t.arrived q = s.arrived q ∧ t.returned q = s.returned q)
    (hpending : ∀ x ∈ t.pending, x ∈ s.pending) (q : Fin C.size) : AtPhase t q (t.phase q) := by
  rw [hphase]
  by_cases hq : q = p
  · subst hq
    rw [Function.update_self]
    exact hp
  · rw [Function.update_of_ne hq]
    obtain ⟨hl, he, ha, hr⟩ := hother q hq
    exact (h q).congr hl he ha hr fun x hx _ => hpending x hx

theorem Inv.complete (h : Inv s) (done : Op C → Bool) : Inv (s.complete done) where
  regions := h.regions
  live x hx := h.live x (List.mem_of_mem_filter hx)
  phase p := (h.phase p).congr rfl rfl rfl rfl fun _ hx _ => List.mem_of_mem_filter hx
  arrived x hx := h.arrived x (List.mem_of_mem_filter hx)
  together := h.together
  logged x hx := by
    rcases h.logged x hx with hmem | hmem
    · cases hd : done x with
      | false => exact .inl (List.mem_filter.mpr ⟨hmem, by simp [hd]⟩)
      | true => exact .inr (List.mem_append_right _ (List.mem_filter.mpr ⟨hmem, hd⟩))
    · exact .inr (List.mem_append_left _ hmem)

/-- A collective call changes only the lists of its members, and a region that
goes was one of exactly these members. -/
theorem next_regions {r r' : Regions.State C} {c : Regions.Call C}
    (hn : Regions.next r c = some r') :
    (∀ p ∉ C.members (callGroup c).comm, r'.lists p = r.lists p) ∧
    ∀ R ∈ r.live, R ∈ r'.live ∨ (∀ R' ∈ r'.live, R'.win ≠ R.win) ∧
      ∀ p : Fin C.size, p.val ∈ R.win.comm.ranks → p ∈ C.members (callGroup c).comm := by
  have hdestroy : ∀ g mregs, Regions.gmrDestroy r g mregs = .ok r' →
      (∀ p ∉ C.members g.comm, r'.lists p = r.lists p) ∧
      ∀ R ∈ r.live, R ∈ r'.live ∨ (∀ R' ∈ r'.live, R'.win ≠ R.win) ∧
        ∀ p : Fin C.size, p.val ∈ R.win.comm.ranks → p ∈ C.members g.comm := by
    intro g mregs hd
    rcases Regions.gmrDestroy_cases hd with rfl | ⟨win, hsame, -, hlive, -, -, hout⟩
    · exact ⟨fun _ _ => rfl, fun R hR => .inl hR⟩
    · refine ⟨hout, fun R hR => ?_⟩
      rw [hlive]
      by_cases hwin : R.win = win
      · refine .inr ⟨fun R' hR' => ?_, fun p hp => ?_⟩
        · rw [hwin]
          simpa using (List.mem_filter.mp hR').2
        · rw [← hsame, ← hwin]
          exact Cluster.mem_members.mpr hp
      · exact .inl (List.mem_filter.mpr ⟨hR, by simpa using hwin⟩)
  cases c with
  | create A =>
    simp only [Regions.next, Option.ite_none_right_eq_some] at hn
    rcases Regions.gmrCreate_cases (Regions.eq_ok_of_toOption hn.2) with ⟨-, rfl⟩ |
      ⟨-, -, hlive, -, -, hout⟩
    · exact ⟨fun _ _ => rfl, fun R hR => .inl hR⟩
    · exact ⟨hout, fun R hR => .inl (by rw [hlive]; exact List.mem_append_left _ hR)⟩
  | destroy g mregs => exact hdestroy g mregs (Regions.eq_ok_of_toOption hn)
  | free g ptrs =>
    obtain ⟨mregs, hd⟩ := Regions.armciFreeGroup_eq_ok (Regions.eq_ok_of_toOption hn)
    exact hdestroy g mregs hd

theorem Inv.call (h : Inv s) {c : Regions.Call C}
    (hrun : ∀ p ∈ C.members (callGroup c).comm, s.phase p = .running)
    (hn : Regions.next s.regions c = some r) :
    Inv { s.complete (fun x => x.origin ∈ C.members (callGroup c).comm ∧
      ∀ R ∈ r.live, R.win ≠ x.rma.win) with regions := r } := by
  obtain ⟨hlists, hlive⟩ := next_regions hn
  have h' := h.complete fun x => x.origin ∈ C.members (callGroup c).comm ∧
    ∀ R ∈ r.live, R.win ≠ x.rma.win
  refine ⟨h.regions.next hn, fun x hx => ?_, fun p => ?_, h'.arrived, h'.together, h'.logged⟩
  · obtain ⟨R, hR, hwin⟩ := h'.live x hx
    have hmem : x.origin.val ∈ R.win.comm.ranks := by simpa using (List.mem_filter.mp hR).2
    rcases hlive R (List.mem_of_mem_filter hR) with hstay | ⟨hgone, hmembers⟩
    · exact ⟨R, List.mem_filter.mpr ⟨hstay, by simpa using hmem⟩, hwin⟩
    · -- the origin has ended the epoch of the window
      have hnot := (List.mem_filter.mp hx).2
      simp only [Bool.not_eq_true', decide_eq_false_iff_not, not_and] at hnot
      exact absurd (fun R' hR' => hwin ▸ hgone R' hR') (hnot (hmembers _ hmem))
  · by_cases hp : p ∈ C.members (callGroup c).comm
    · have hphase := h'.phase p
      simp only [State.complete, hrun p hp] at hphase ⊢
      exact hphase
    · exact (h'.phase p).congr (hlists p hp) rfl rfl rfl fun _ hx _ => hx

theorem State.issue_eq_some (hn : s.issue p ptr proc rma = some t) :
    ∃ a c, (s.regions.lists p).cells a = some c ∧ c.val.window = some rma.win ∧
      t = { s with issued := s.issued ++ [⟨s.issued.length, p, rma, s.entered p⟩]
                   pending := s.pending ++ [⟨s.issued.length, p, rma, s.entered p⟩] } := by
  unfold State.issue at hn
  split at hn
  · split at hn
    · rename_i c hc
      simp only [Option.ite_none_right_eq_some, Option.some.injEq] at hn
      exact ⟨_, c, hc, hn.1, hn.2.symm⟩
    · cases hn
  · cases hn

theorem Inv.issue (h : Inv s) (hrun : s.phase p = .running)
    (hn : s.issue p ptr proc rma = some t) : Inv t := by
  obtain ⟨a, c, hc, hwin, rfl⟩ := State.issue_eq_some hn
  obtain ⟨-, -, Rl, R, Rr, -, hon, -, -, hval⟩ := h.regions.cell hc
  have hRwin : R.win = rma.win := by
    rw [hval] at hwin
    exact Option.some.inj hwin
  have hphase := h.phase p
  rw [hrun] at hphase
  refine ⟨h.regions, fun x hx => ?_, fun q => ?_, fun x hx => ?_, h.together, fun x hx => ?_⟩
  · rcases List.mem_append.mp hx with hx | hx
    · exact h.live x hx
    · rw [List.mem_singleton.mp hx]
      exact ⟨R, by simp [hon], hRwin⟩
  · by_cases hq : q = p
    · subst hq
      simp only [hrun]
      exact hphase
    · refine (h.phase q).congr rfl rfl rfl rfl fun x hx hxq => ?_
      rcases List.mem_append.mp hx with hx | hx
      · exact hx
      · rw [List.mem_singleton.mp hx] at hxq
        exact absurd hxq.symm hq
  · rcases List.mem_append.mp hx with hx | hx
    · exact h.arrived x hx
    · rw [List.mem_singleton.mp hx]
      exact Nat.le_of_eq hphase.1.symm
  · rcases List.mem_append.mp hx with hx | hx
    · exact (h.logged x hx).imp_left (List.mem_append_left _)
    · exact .inl (List.mem_append_right _ hx)

theorem Inv.enter (h : Inv s) (hrun : s.phase p = .running) :
    Inv { s.setPhase p (.fencing (s.regions.lists p).head) with
      entered := Function.update s.entered p (s.entered p + 1) } := by
  have hphase := h.phase p
  rw [hrun] at hphase
  refine ⟨h.regions, h.live, phase_update h.phase rfl ?_ ?_ fun _ hx => hx, h.arrived, h.together,
    h.logged⟩
  · obtain ⟨xs, hxs, hval⟩ := h.regions.holds p
    refine ⟨by simpa [State.setPhase] using hphase.1, hphase.2, [], xs, hxs, hxs.linked.head,
      fun x hx hxp => ?_⟩
    obtain ⟨R, hR, hwin⟩ := h.live x hx
    rw [hxp] at hR
    obtain ⟨y, hy, heq⟩ := List.mem_map.mp
      (hval.symm ▸ List.mem_map_of_mem (f := (C.mreg · p)) hR)
    exact ⟨y, hy, by rw [heq, ← hwin]; rfl⟩
  · intro q hq
    simp [State.setPhase, hq]

theorem Inv.flush (h : Inv s) (hph : s.phase p = .fencing (some a))
    (hn : s.flush p a = some t) : Inv t := by
  have hphase := h.phase p
  rw [hph] at hphase
  obtain ⟨hent, harr, l, rest, hl, hcur, hcov⟩ := hphase
  cases rest with
  | nil => cases hcur
  | cons y rest =>
    obtain rfl : a = y.1 := Option.some.inj hcur
    have hc := hl.linked.links l y.1 y.2 rest rfl
    obtain ⟨-, -, Rl, R, Rr, -, hon, -, -, hval⟩ := h.regions.cell hc
    have hR : R ∈ s.regions.on p := by simp [hon]
    have hok : y.2.Ok (C.env p).world (C.env p).cfg R.win := by
      rw [show y.2 = C.mreg R p from hval]
      exact (h.regions.ok R (List.mem_of_mem_filter hR)).mreg_ok
        (by simpa using (List.mem_filter.mp hR).2)
    simp only [State.flush, hc, gmrFlushall_ok hok, Option.some.injEq] at hn
    subst hn
    have h' := h.complete fun x => x.origin = p ∧
      ∃ act ∈ [flushallAct (C.env p) false R.win], act.Completes .target x.rma
    refine ⟨h'.regions, h'.live, phase_update h'.phase rfl ?_ (fun _ _ => ⟨rfl, rfl, rfl, rfl⟩)
      fun _ hx => hx, h'.arrived, h'.together, h'.logged⟩
    have hl' : (s.regions.lists p).Holds ((l ++ [y]) ++ rest) := by simpa using hl
    refine ⟨hent, harr, l ++ [y], rest, hl', rfl, fun x hx hxp => ?_⟩
    obtain ⟨hmem, hnot⟩ := List.mem_filter.mp hx
    obtain ⟨z, hz, hzwin⟩ := hcov x hmem hxp
    rcases List.mem_cons.mp hz with rfl | hz
    · -- the flush of this window has applied it
      rw [hok.window] at hzwin
      simp [hxp, flushallAct, Act.Completes, Option.some.inj hzwin] at hnot
    · exact ⟨z, hz, hzwin⟩

theorem Inv.arrive (h : Inv s) (hph : s.phase p = .fencing none) :
    Inv { s.setPhase p .waiting with
      arrived := Function.update s.arrived p (s.arrived p + 1) } := by
  have hphase := h.phase p
  rw [hph] at hphase
  obtain ⟨hent, harr, l, rest, hl, hcur, hcov⟩ := hphase
  have hnone : ∀ x ∈ s.pending, x.origin ≠ p := by
    intro x hx hxp
    obtain ⟨y, hy, -⟩ := hcov x hx hxp
    cases rest with
    | nil => cases hy
    | cons z rest => cases hcur
  refine ⟨h.regions, h.live, phase_update h.phase rfl ?_ ?_ fun _ hx => hx, fun x hx => ?_,
    fun q r => ?_, h.logged⟩
  · exact ⟨by simpa [State.setPhase] using hent, by simpa [State.setPhase] using harr⟩
  · intro q hq
    simp [State.setPhase, hq]
  · have := h.arrived x hx
    simpa [hnone x hx] using this
  · have hle := h.together q r
    by_cases hr : r = p
    · subst hr
      simpa [State.setPhase] using Nat.le_succ_of_le hle
    · simpa [State.setPhase, hr] using hle

theorem Inv.leave (h : Inv s) (hph : s.phase p = .waiting) (hall : ∀ q, s.arrived p ≤ s.arrived q) :
    Inv { s.setPhase p .running with
      returned := Function.update s.returned p (s.returned p + 1) } := by
  have hphase := h.phase p
  rw [hph] at hphase
  obtain ⟨hent, harr⟩ := hphase
  refine ⟨h.regions, h.live, phase_update h.phase rfl ?_ ?_ fun _ hx => hx, h.arrived,
    fun q r => ?_, h.logged⟩
  · exact ⟨hent, by simpa [State.setPhase] using harr⟩
  · intro q hq
    simp [State.setPhase, hq]
  · by_cases hq : q = p
    · subst hq
      simpa [State.setPhase, ← harr] using hall r
    · simpa [State.setPhase, hq] using h.together q r

theorem Inv.next (h : Inv s) (hn : Barrier.next s a = some t) : Inv t := by
  cases a with
  | call c =>
    simp only [Barrier.next, Option.ite_none_right_eq_some, Option.map_eq_some_iff] at hn
    obtain ⟨hrun, r, hr, rfl⟩ := hn
    exact h.call hrun hr
  | issue p ptr proc rma =>
    simp only [Barrier.next, Option.ite_none_right_eq_some] at hn
    exact h.issue hn.1 hn.2
  | apply id => cases hn; exact h.complete _
  | enter p =>
    simp only [Barrier.next, Option.ite_none_right_eq_some, Option.some.injEq] at hn
    obtain ⟨hrun, rfl⟩ := hn
    exact h.enter hrun
  | flush p =>
    simp only [Barrier.next] at hn
    split at hn
    · rename_i a hph
      exact h.flush hph hn
    · cases hn
  | arrive p =>
    simp only [Barrier.next, Option.ite_none_right_eq_some, Option.some.injEq] at hn
    obtain ⟨hph, rfl⟩ := hn
    exact h.arrive hph
  | leave p =>
    simp only [Barrier.next, Option.ite_none_right_eq_some, Option.some.injEq] at hn
    obtain ⟨⟨hph, hall⟩, rfl⟩ := hn
    exact h.leave hph hall

theorem inv_of_reachable (h : (system C).Reachable s) : Inv s :=
  h.invariant (by rintro s rfl; exact .start) fun _ _ _ _ hi hn => hi.next hn

/-- Once a process has returned from as many barriers as its origin had not yet
entered, an operation has been applied. -/
theorem barrier_publishes (h : (system C).Reachable s) (p : Fin C.size) {x : Op C}
    (hx : x ∈ s.issued) (hbefore : x.epoch < s.returned p) : x ∈ s.applied ∧ x ∉ s.pending := by
  have hi := inv_of_reachable h
  have hnot : x ∉ s.pending := by
    intro hmem
    have harr := hi.arrived x hmem
    have htog := hi.together p x.origin
    omega
  exact ⟨(hi.logged x hx).resolve_left hnot, hnot⟩

end

/-- A put of one byte to the second process, on the region of `oneSided`. -/
def bytePut : Rma :=
  ⟨.put, false, none, (Regions.oneSided.region Regions.pairCluster 0).win, 1, 64, 1,
    .predefined .byte, 0, 1, .predefined .byte⟩

def putThenBarrier : List (Step Regions.pairCluster) :=
  have p : Fin Regions.pairCluster.size := ⟨0, by decide⟩
  have q : Fin Regions.pairCluster.size := ⟨1, by decide⟩
  [.call (.create Regions.oneSided), .issue p 4096 1 bytePut, .enter q, .enter p, .flush q,
    .arrive q, .flush p, .arrive p, .leave q]

theorem barrier_publishes_put :
    ∃ s, (system Regions.pairCluster).Reachable s ∧
      ∃ x ∈ s.issued, x.rma = bytePut ∧ x ∈ s.applied ∧ x ∉ s.pending := by
  have hrun : ((system Regions.pairCluster).run (start Regions.pairCluster) putThenBarrier).map
      (fun s => (s.issued, s.returned ⟨1, by decide⟩)) =
        some ([⟨0, ⟨0, by decide⟩, bytePut, 0⟩], 1) := by decide +kernel
  obtain ⟨s, hs, heq⟩ := Option.map_eq_some_iff.mp hrun
  obtain ⟨hissued, hreturned⟩ := Prod.mk.inj heq
  have hreach : (system Regions.pairCluster).Reachable s := (System.Reachable.init rfl).run hs
  have hmem : (⟨0, ⟨0, by decide⟩, bytePut, 0⟩ : Op Regions.pairCluster) ∈ s.issued := by
    simp [hissued]
  exact ⟨s, hreach, _, hmem, rfl,
    barrier_publishes hreach ⟨1, by decide⟩ hmem (by simp [hreturned])⟩

end Barrier

end ArmciMpi
