import ArmciMpi.Runtime.Gmr

/-!
# Fences

`PARMCI_Fence` and `PARMCI_WaitProc` flush one process on every live region;
`PARMCI_AllFence` and `PARMCI_WaitAll` flush every process on every region.
The first two translate the process into the group of each region on the
list, and a region whose group does not contain the process makes the flush
abort: `fence_waitProc_iff` is an equivalence. The other two have no such
condition (`allFence_complete`).
-/

namespace ArmciMpi

open Lib Script

def parmciFence (env : Env) (proc : Nat) : Script Act Unit :=
  forEach (fun mreg => gmrFlush env mreg proc false) env.regions

def parmciWaitProc (env : Env) (proc : Nat) : Script Act Unit :=
  forEach (fun mreg => gmrFlush env mreg proc true) env.regions

def parmciAllFence (env : Env) : Script Act Unit :=
  forEach (fun mreg => gmrFlushall env mreg false) env.regions

def parmciWaitAll (env : Env) : Script Act Unit :=
  forEach (fun mreg => gmrFlushall env mreg true) env.regions

def Env.Issued (env : Env) (op : Rma) : Prop := ∃ mreg ∈ env.regions, mreg.window = some op.win

/-- The operation was issued to a world rank on a live region. -/
def Env.IssuedTo (env : Env) (op : Rma) (proc : Nat) : Prop :=
  env.Issued op ∧ op.win.worldRank op.target = some proc

def Env.AllReach (env : Env) (proc : Nat) : Prop :=
  ∀ mreg ∈ env.regions, ∀ c, mreg.group.comm = some c → proc ∈ c.ranks

def Drains (env : Env) (call : Script Act Unit) (side : Side) (proc : Nat) (done : List Act) :
    Prop :=
  ∃ acts, call done = (.ok (), acts) ∧
    ∀ op ∈ pending side (done ++ acts), ¬ env.IssuedTo op proc

-- ------------------------------
-- One process
-- ------------------------------

def sideOf (localOnly : Bool) : Side := if localOnly then .origin else .target

theorem flushAct_completes (env : Env) (localOnly : Bool) {op : Rma} (h : op.On win t) :
    (flushAct env localOnly win t).Completes (sideOf localOnly) op := by
  unfold flushAct
  cases localOnly with
  | false => exact h
  | true =>
    split
    · exact h
    · exact ⟨rfl, h⟩

section
variable {env : Env} {proc : Nat}

def flushOf (env : Env) (proc : Nat) (localOnly : Bool) (mreg : Gmr) : List Act :=
  match mreg.window with
  | some win => ((win.comm.rankOf proc).map fun (g : Nat) => flushAct env localOnly win g).toList
  | none => []

theorem flushEach_ok (hreach : env.AllReach proc) (localOnly : Bool) (done : List Act) :
    forEach (fun mreg => gmrFlush env mreg proc localOnly) env.regions done =
      (.ok (), env.regions.flatMap (flushOf env proc localOnly)) := by
  refine forEach_ok (fun mreg hmem h => ?_) done
  obtain ⟨win, hr⟩ := env.regions_ok mreg hmem
  have hin := hreach mreg hmem win.comm hr.group.comm
  obtain ⟨g, hg⟩ := Option.isSome_iff_exists.mp (Comm.rankOf_isSome.mpr hin)
  rw [gmrFlush_ok hr hg]
  simp [flushOf, hr.window, hg]

theorem flushEach_issues (localOnly : Bool) :
    ∀ a ∈ env.regions.flatMap (flushOf env proc localOnly), a.issues = [] := by
  intro a ha
  obtain ⟨mreg, -, ha⟩ := List.mem_flatMap.mp ha
  unfold flushOf at ha
  split at ha
  · rename_i win hwin
    cases hg : win.comm.rankOf proc with
    | none => simp [hg] at ha
    | some g =>
      simp only [hg, Option.map_some, Option.toList_some, List.mem_singleton] at ha
      rw [ha, flushAct_issues]
  · cases ha

theorem flushEach_completes (localOnly : Bool) {op : Rma} (hop : env.IssuedTo op proc) :
    ∃ a ∈ env.regions.flatMap (flushOf env proc localOnly), a.Completes (sideOf localOnly) op := by
  obtain ⟨⟨mreg, hmem, hwin⟩, hrank⟩ := hop
  obtain ⟨g, ht, hg⟩ := Win.rankOf_of_worldRank hrank
  refine ⟨flushAct env localOnly op.win g, List.mem_flatMap.mpr ⟨mreg, hmem, ?_⟩,
    flushAct_completes env localOnly ⟨rfl, ht⟩⟩
  simp [flushOf, hwin, hg]

theorem flushEach_drains (hreach : env.AllReach proc) (localOnly : Bool) (done : List Act) :
    Drains env (forEach (fun mreg => gmrFlush env mreg proc localOnly) env.regions)
      (sideOf localOnly) proc done := by
  refine ⟨_, flushEach_ok hreach localOnly done, fun op hop hissued => ?_⟩
  rw [pending_append] at hop
  obtain ⟨a, ha, hcompletes⟩ := flushEach_completes localOnly hissued
  exact (mem_foldl_pendingStep (flushEach_issues localOnly) hop).2 a ha hcompletes

theorem flushEach_reach (hsize : proc < env.world.size) {localOnly : Bool} {done : List Act}
    (hret : (forEach (fun mreg => gmrFlush env mreg proc localOnly) env.regions).Returns done) :
    env.AllReach proc := by
  intro mreg hmem c hc
  by_contra hnot
  obtain ⟨win, hr⟩ := env.regions_ok mreg hmem
  have hwin : win.comm = c := Option.some.inj (hr.group.comm.symm.trans hc)
  have hnone : win.comm.rankOf proc = none := by
    rw [hwin, ← Option.not_isSome_iff_eq_none, Comm.rankOf_isSome]
    exact hnot
  refine forEach_not_returns hmem (fun h => ?_) done hret
  obtain ⟨e, he⟩ := gmrFlush_nonmember hr hsize hnone localOnly h
  exact not_returns_of_error he

theorem flushEach_iff (hsize : proc < env.world.size) (localOnly : Bool) (done : List Act) :
    Drains env (forEach (fun mreg => gmrFlush env mreg proc localOnly) env.regions)
      (sideOf localOnly) proc done ↔ env.AllReach proc := by
  constructor
  · rintro ⟨acts, hacts, -⟩
    exact flushEach_reach hsize (returns_of_ok hacts)
  · exact fun hreach => flushEach_drains hreach localOnly done

end

/-- Whatever the caller has done, a fence of a process (a wait for it) returns
with every operation to it complete at the target (at the origin) exactly when
the groups of all live regions contain the process. -/
theorem fence_waitProc_iff (env : Env) (proc : Fin env.world.size) (done : List Act) :
    (Drains env (parmciFence env proc) .target proc done ↔ env.AllReach proc) ∧
    (Drains env (parmciWaitProc env proc) .origin proc done ↔ env.AllReach proc) :=
  ⟨flushEach_iff proc.isLt false done, flushEach_iff proc.isLt true done⟩

-- ------------------------------
-- A region on a subgroup
-- ------------------------------

def defaultState : GlobalState where
  iovChecks := false
  iovBatchedLimit := 0
  iovDtypeChunk := 0
  noncollectiveGroups := false
  cacheRankTranslation := true
  explicitNbProgress := true
  rmaAtomicity := false
  endToEndFlush := false
  stridedMethod := .direct
  iovMethod := .batched
  shrBufMethod := .noguard
  useRmaRequests := true

def selfWin : Win := ⟨0, selfComm, [4096]⟩

def selfRegion : Gmr where
  window := some selfWin
  group := groupInitFromComm pairWorld defaultState selfComm ⟨some selfComm, none, 0, 0, none, none⟩
  slices := [⟨4096, 64⟩, ⟨0, 0⟩]
  nslices := 2
  unified := true

theorem selfRegion_resized (size : Int) :
    ({ selfRegion with slices := [⟨4096, size⟩, ⟨0, 0⟩] } : Gmr).Ok pairWorld defaultState selfWin where
  window := rfl
  group := ⟨by decide, selfComm, ⟨some selfComm, none, 0, 0, none, none⟩, rfl, rfl⟩
  member := by decide
  nslices := rfl
  outside := by
    intro p hp
    match p with
    | 0 => cases hp
    | 1 => rfl
    | p + 2 => rfl
  base := by
    intro p g hp _
    match p with
    | 0 => cases hp; rfl
    | p + 1 => cases hp
  nonnull := by
    intro p hp
    match p with
    | 0 => exact show (0 : Int) < 4096 by decide
    | 1 => cases hp
    | p + 2 => cases hp

theorem selfRegion_ok : selfRegion.Ok pairWorld defaultState selfWin := selfRegion_resized 64

def selfRegionEnv : Env where
  world := pairWorld
  cfg := defaultState
  regions := [selfRegion]
  allocMem := fun _ _ => 0
  regions_ok := by
    intro r hr
    rw [List.mem_singleton.mp hr]
    exact ⟨_, selfRegion_ok⟩

/-- Rank 0 has a region on a group without rank 1: fencing rank 1 aborts, and so
does waiting for it. -/
theorem fence_outside_group_aborts :
    ¬ Drains selfRegionEnv (parmciFence selfRegionEnv 1) .target 1 [] ∧
    ¬ Drains selfRegionEnv (parmciWaitProc selfRegionEnv 1) .origin 1 [] := by
  have hnot : ¬ selfRegionEnv.AllReach 1 := by
    intro h
    exact absurd (h selfRegion List.mem_cons_self selfComm rfl) (by decide)
  exact ⟨fun h => hnot ((flushEach_iff (by decide) false []).mp h),
    fun h => hnot ((flushEach_iff (by decide) true []).mp h)⟩

-- ------------------------------
-- All processes
-- ------------------------------

theorem flushallEach_ok (env : Env) (localOnly : Bool) (done : List Act) :
    forEach (fun mreg => gmrFlushall env mreg localOnly) env.regions done =
      (.ok (), env.regions.flatMap fun mreg =>
        (mreg.window.map (flushallAct env localOnly)).toList) := by
  refine forEach_ok (fun mreg hmem h => ?_) done
  obtain ⟨win, hr⟩ := env.regions_ok mreg hmem
  rw [gmrFlushall_ok hr]
  simp [hr.window]

theorem flushallAct_issues (env : Env) (localOnly : Bool) (win : Win) :
    (flushallAct env localOnly win).issues = [] := by
  unfold flushallAct
  split <;> rfl

theorem flushallAct_completes (env : Env) (localOnly : Bool) {op : Rma} :
    (flushallAct env localOnly op.win).Completes (sideOf localOnly) op := by
  unfold flushallAct
  cases localOnly with
  | false => exact rfl
  | true =>
    split
    · exact rfl
    · exact ⟨rfl, rfl⟩

theorem flushallEach_complete (env : Env) (localOnly : Bool) (done : List Act) :
    ∃ acts, forEach (fun mreg => gmrFlushall env mreg localOnly) env.regions done =
        (.ok (), acts) ∧
      ∀ op ∈ pending (sideOf localOnly) (done ++ acts), ¬ env.Issued op := by
  refine ⟨_, flushallEach_ok env localOnly done, fun op hop hissued => ?_⟩
  rw [pending_append] at hop
  refine (mem_foldl_pendingStep (fun a ha => ?_) hop).2 (flushallAct env localOnly op.win) ?_
    (flushallAct_completes env localOnly)
  · obtain ⟨mreg, -, ha⟩ := List.mem_flatMap.mp ha
    obtain ⟨win, -, rfl⟩ := Option.map_eq_some_iff.mp (Option.mem_toList.mp ha)
    exact flushallAct_issues env localOnly win
  · obtain ⟨mreg, hmem, hwin⟩ := hissued
    exact List.mem_flatMap.mpr ⟨mreg, hmem, by simp [hwin]⟩

/-- `PARMCI_AllFence` returns, and no operation on a live region is incomplete
at its target afterwards. -/
theorem allFence_complete (env : Env) (done : List Act) :
    ∃ acts, parmciAllFence env done = (.ok (), acts) ∧
      ∀ op ∈ pending .target (done ++ acts), ¬ env.Issued op :=
  flushallEach_complete env false done

/-- `PARMCI_WaitAll` does the same at the origin. -/
theorem waitAll_complete (env : Env) (done : List Act) :
    ∃ acts, parmciWaitAll env done = (.ok (), acts) ∧
      ∀ op ∈ pending .origin (done ++ acts), ¬ env.Issued op :=
  flushallEach_complete env true done

end ArmciMpi
