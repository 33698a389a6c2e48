import ArmciMpi.Lib.Script
import ArmciMpi.Runtime.Group

/-!
# Global memory regions

A region is a window with the group it was allocated on and one slice for
each world rank. The accessors translate the target rank, check that the
transfer lies inside the target's slice and issue one MPI operation; a flush
completes the operations on one target. Put, get and accumulate differ only
in which argument is the remote one, so they are instances of
`gmrRmaTyped`.

`gmrRmaTyped_ok` and `gmrRmaTyped_out_of_range` say when an accessor issues its
operation, for every region of a process.
-/

namespace ArmciMpi

open Lib Script

structure Slice where
  base : Int
  size : Int
  deriving DecidableEq

/-- `gmr_t`; the links of the region list are the order of `Env.regions`. -/
structure Gmr where
  window : Option Win
  group : Group
  slices : List Slice
  nslices : Nat
  unified : Bool
  deriving DecidableEq

def Gmr.slice (r : Gmr) (proc : Nat) : Slice := (r.slices[proc]?).getD ⟨0, 0⟩

/-- A region as `gmr_create` builds it on a member of its group. -/
structure Gmr.Ok (w : World) (cfg : GlobalState) (r : Gmr) (win : Win) : Prop where
  window : r.window = some win
  group : r.group.From w cfg win.comm
  member : w.rank ∈ win.comm.ranks
  nslices : r.nslices = w.size
  outside : ∀ p, win.comm.rankOf p = none → r.slice p = ⟨0, 0⟩
  base : ∀ p g, win.comm.rankOf p = some g → 0 < (r.slice p).size →
    win.base[g]? = some (r.slice p).base
  nonnull : ∀ p, 0 < (r.slice p).size → 0 < (r.slice p).base

/-- One process: its world, its settings, its list of live regions and the
addresses `MPI_Alloc_mem` gives it, which may depend on all it did before. -/
structure Env where
  world : World
  cfg : GlobalState
  regions : List Gmr
  allocMem : List Act → Nat → Int
  regions_ok : ∀ r ∈ regions, ∃ win, r.Ok world cfg win

def Env.me (env : Env) : Nat := env.world.rank

def Env.Live (env : Env) (win : Win) : Prop := ∃ mreg ∈ env.regions, mreg.window = some win

def lookupIn (ptr : Int) (proc : Nat) : List Gmr → Except String (Option Gmr)
  | [] => .ok none
  | mreg :: rest =>
    if ¬ proc < mreg.nslices then .error "proc < mreg->nslices"
    else if (mreg.slice proc).base ≤ ptr ∧ ptr < (mreg.slice proc).base + (mreg.slice proc).size
    then .ok (some mreg)
    else lookupIn ptr proc rest

def Slice.Contains (x : Slice) (ptr : Int) : Prop := x.base ≤ ptr ∧ ptr < x.base + x.size

instance (x : Slice) (ptr : Int) : Decidable (x.Contains ptr) :=
  inferInstanceAs (Decidable (x.base ≤ ptr ∧ ptr < x.base + x.size))

theorem lookupIn_eq_find (ptr : Int) {proc : Nat} {regions : List Gmr}
    (hn : ∀ mreg ∈ regions, proc < mreg.nslices) :
    lookupIn ptr proc regions =
      .ok (regions.find? fun mreg => (mreg.slice proc).Contains ptr) := by
  induction regions with
  | nil => rfl
  | cons mreg rest ih =>
    rw [lookupIn, if_neg (not_not.mpr (hn mreg List.mem_cons_self)), List.find?_cons]
    split
    · rename_i hin
      rw [decide_eq_true (show (mreg.slice proc).Contains ptr from hin)]
    · rename_i hout
      rw [decide_eq_false (show ¬ (mreg.slice proc).Contains ptr from hout)]
      exact ih fun r hr => hn r (List.mem_cons_of_mem mreg hr)

def gmrLookup (env : Env) (ptr : Int) (proc : Nat) : Except String (Option Gmr) :=
  lookupIn ptr proc env.regions

def nullWindow : String := "A non-null mreg contains a null window."

def Gmr.getWindow (mreg : Gmr) : Except String Win :=
  match mreg.window with
  | some win => .ok win
  | none => .error nullWindow

/-- The displacement of a remote address in the slice of a process. A null address
is `MPI_BOTTOM`: the displacements are in the type. -/
def Gmr.disp (mreg : Gmr) (proc : Nat) (rem : Int) : Int :=
  if rem = 0 then 0 else rem - (mreg.slice proc).base

/-- The common body of `gmr_put_typed`, `gmr_get_typed` and
`gmr_accumulate_typed`. -/
def gmrRmaTyped (env : Env) (kind : RmaKind) (atomic : Bool) (mreg : Gmr)
    (loc : Int) (locCount : Nat) (locType : Dtype)
    (rem : Int) (remCount : Nat) (remType : Dtype)
    (proc : Nat) (handle : Option Nat) : Script Act Unit := do
  let grpProc ← lift (translateAbsoluteToGroup env.world mreg.group proc)
  require (0 ≤ grpProc) "grp_proc >= 0"
  let win ← lift mreg.getWindow
  let disp := mreg.disp proc rem
  require (0 ≤ disp ∧ disp < (mreg.slice proc).size) "Invalid remote address"
  require (disp + remCount * remType.trueExtent ≤ (mreg.slice proc).size)
    "Transfer is out of range"
  emit (.rma
    { kind, atomic, win
      request := if env.cfg.useRmaRequests then handle else none
      target := grpProc
      origin := loc, originCount := locCount, originType := locType
      disp, targetCount := remCount, targetType := remType })
  match handle with
  | some h => if env.cfg.useRmaRequests then pure () else emit (.setTarget h grpProc)
  | none => pure ()

def gmrPutTyped (env : Env) (mreg : Gmr) (src : Int) (srcCount : Nat) (srcType : Dtype)
    (dst : Int) (dstCount : Nat) (dstType : Dtype) (proc : Nat) (handle : Option Nat) :
    Script Act Unit :=
  gmrRmaTyped env .put env.cfg.rmaAtomicity mreg src srcCount srcType dst dstCount dstType proc
    handle

def gmrGetTyped (env : Env) (mreg : Gmr) (src : Int) (srcCount : Nat) (srcType : Dtype)
    (dst : Int) (dstCount : Nat) (dstType : Dtype) (proc : Nat) (handle : Option Nat) :
    Script Act Unit :=
  gmrRmaTyped env .get env.cfg.rmaAtomicity mreg dst dstCount dstType src srcCount srcType proc
    handle

def gmrAccumulateTyped (env : Env) (mreg : Gmr) (src : Int) (srcCount : Nat) (srcType : Dtype)
    (dst : Int) (dstCount : Nat) (dstType : Dtype) (proc : Nat) (handle : Option Nat) :
    Script Act Unit :=
  gmrRmaTyped env .acc false mreg src srcCount srcType dst dstCount dstType proc handle

def gmrPut (env : Env) (mreg : Gmr) (src dst : Int) (size : Nat) (proc : Nat)
    (handle : Option Nat) : Script Act Unit := do
  require (src ≠ 0) "Invalid local address"
  gmrPutTyped env mreg src size (.predefined .byte) dst size (.predefined .byte) proc handle

def gmrGet (env : Env) (mreg : Gmr) (src dst : Int) (size : Nat) (proc : Nat)
    (handle : Option Nat) : Script Act Unit := do
  require (dst ≠ 0) "Invalid local address"
  gmrGetTyped env mreg src size (.predefined .byte) dst size (.predefined .byte) proc handle

def gmrAccumulate (env : Env) (mreg : Gmr) (src dst : Int) (count : Nat) (type : Dtype)
    (proc : Nat) (handle : Option Nat) : Script Act Unit := do
  require (src ≠ 0) "Invalid local address"
  gmrAccumulateTyped env mreg src count type dst count type proc handle

def gmrFlush (env : Env) (mreg : Gmr) (proc : Nat) (localOnly : Bool) : Script Act Unit := do
  let grpProc ← lift (translateAbsoluteToGroup env.world mreg.group proc)
  let grpMe ← lift (translateAbsoluteToGroup env.world mreg.group env.me)
  require (0 ≤ grpProc ∧ 0 ≤ grpMe) "grp_proc >= 0 && grp_me >= 0"
  let win ← lift mreg.getWindow
  require (grpProc < mreg.group.size) "grp_proc exceeds group size!"
  if !localOnly || env.cfg.endToEndFlush then emit (.flush win grpProc)
  else emit (.flushLocal win grpProc)

def gmrFlushall (env : Env) (mreg : Gmr) (localOnly : Bool) : Script Act Unit := do
  let grpMe ← lift (translateAbsoluteToGroup env.world mreg.group env.me)
  require (0 ≤ grpMe) "grp_me >= 0"
  let win ← lift mreg.getWindow
  if !localOnly || env.cfg.endToEndFlush then emit (.flushAll win)
  else emit (.flushLocalAll win)

def gmrSync (mreg : Gmr) : Script Act Unit := do
  let win ← lift mreg.getWindow
  if mreg.unified then pure () else emit (.winSync win)

def gmrProgress (env : Env) : Script Act Unit :=
  if env.cfg.explicitNbProgress then emit .iprobe else pure ()

-- ------------------------------
-- Flushing
-- ------------------------------

/-- The flush `gmr_flush` performs. -/
def flushAct (env : Env) (localOnly : Bool) (win : Win) (target : Int) : Act :=
  if !localOnly || env.cfg.endToEndFlush then .flush win target else .flushLocal win target

/-- The flush `gmr_flushall` performs. -/
def flushallAct (env : Env) (localOnly : Bool) (win : Win) : Act :=
  if !localOnly || env.cfg.endToEndFlush then .flushAll win else .flushLocalAll win

theorem flushAct_issues (env : Env) (localOnly : Bool) (win : Win) (t : Int) :
    (flushAct env localOnly win t).issues = [] := by
  unfold flushAct
  split <;> rfl

theorem flushAct_completes_origin (env : Env) (localOnly : Bool) {op : Rma} (h : op.On win t) :
    (flushAct env localOnly win t).Completes .origin op := by
  unfold flushAct
  split
  · exact h
  · exact ⟨rfl, h⟩

section
variable {env : Env} {mreg : Gmr} {win : Win}

theorem Gmr.Ok.getWindow (hr : mreg.Ok env.world env.cfg win) : mreg.getWindow = .ok win := by
  rw [Gmr.getWindow, hr.window]

theorem Gmr.Ok.translate_me (hr : mreg.Ok env.world env.cfg win) :
    ∃ g : Nat, translateAbsoluteToGroup env.world mreg.group env.me = .ok (g : Int) := by
  obtain ⟨g, hg⟩ := Option.isSome_iff_exists.mp (Comm.rankOf_isSome.mpr hr.member)
  exact ⟨g, translate_member hr.group hg⟩

theorem gmrFlush_ok (hr : mreg.Ok env.world env.cfg win) (hp : win.comm.rankOf proc = some g)
    (localOnly : Bool) (h : List Act) :
    gmrFlush env mreg proc localOnly h = (.ok (), [flushAct env localOnly win g]) := by
  obtain ⟨me, hme⟩ := hr.translate_me
  have hlt : (g : Int) < mreg.group.size := by
    rw [hr.group.size]
    exact_mod_cast Comm.rankOf_lt hp
  simp only [gmrFlush, translate_member hr.group hp, hme, hr.getWindow, lift_ok_bind]
  rw [require_true ⟨by omega, by omega⟩, pure_bind_run, require_true hlt, pure_bind_run, flushAct]
  split <;> rfl

theorem emits_gmrFlush {P : Act → Prop} (hfull : ∀ win t, P (.flush win t))
    (hlocal : ∀ win t, P (.flushLocal win t)) (env : Env) (mreg : Gmr) (proc : Nat)
    (localOnly : Bool) : Emits P (gmrFlush env mreg proc localOnly) := by
  refine emits_bind (emits_lift _) fun _ => emits_bind (emits_lift _) fun _ => ?_
  refine emits_bind (emits_require _ _) fun _ => emits_bind (emits_lift _) fun win => ?_
  refine emits_bind (emits_require _ _) fun _ => emits_ite (fun _ => ?_) fun _ => ?_
  · exact emits_emit (hfull win _)
  · exact emits_emit (hlocal win _)

theorem gmrFlush_nonmember (hr : mreg.Ok env.world env.cfg win) (hsize : proc < env.world.size)
    (hp : win.comm.rankOf proc = none) (localOnly : Bool) (h : List Act) :
    ∃ e, gmrFlush env mreg proc localOnly h = (.error e, []) := by
  obtain ⟨me, hme⟩ := hr.translate_me
  obtain ⟨v, hv, hbad⟩ := translate_nonmember hr.group hsize hp
  simp only [gmrFlush, hv, hme, hr.getWindow, lift_ok_bind]
  by_cases hpos : 0 ≤ v
  · have hge : ¬ v < mreg.group.size := fun hlt => hbad ⟨hpos, hlt⟩
    rw [require_true ⟨hpos, by omega⟩, pure_bind_run, require_false hge]
    exact ⟨_, rfl⟩
  · rw [require_false (fun hboth => hpos hboth.1)]
    exact ⟨_, rfl⟩

theorem gmrFlushall_ok (hr : mreg.Ok env.world env.cfg win) (localOnly : Bool) (h : List Act) :
    gmrFlushall env mreg localOnly h = (.ok (), [flushallAct env localOnly win]) := by
  obtain ⟨me, hme⟩ := hr.translate_me
  simp only [gmrFlushall, hme, hr.getWindow, lift_ok_bind]
  rw [require_true (by omega), pure_bind_run, flushallAct]
  split <;> rfl

end

-- ------------------------------
-- Accesses
-- ------------------------------

structure Gmr.Covers (mreg : Gmr) (proc : Nat) (rem : Int) (count : Nat) (type : Dtype) : Prop where
  nonneg : 0 ≤ mreg.disp proc rem
  lt : mreg.disp proc rem < (mreg.slice proc).size
  le : mreg.disp proc rem + count * type.trueExtent ≤ (mreg.slice proc).size

/-- The operation an accessor issues to group rank `g`. -/
def rmaOf (env : Env) (kind : RmaKind) (atomic : Bool) (mreg : Gmr) (win : Win)
    (loc : Int) (locCount : Nat) (locType : Dtype) (rem : Int) (remCount : Nat) (remType : Dtype)
    (proc : Nat) (g : Nat) (handle : Option Nat) : Rma where
  kind := kind
  atomic := atomic
  request := if env.cfg.useRmaRequests then handle else none
  win := win
  target := g
  origin := loc
  originCount := locCount
  originType := locType
  disp := mreg.disp proc rem
  targetCount := remCount
  targetType := remType

def handleActs (env : Env) (g : Nat) (handle : Option Nat) : List Act :=
  match handle with
  | some h => if env.cfg.useRmaRequests then [] else [.setTarget h g]
  | none => []

section
variable {env : Env} {mreg : Gmr} {win : Win} {kind : RmaKind} {atomic : Bool} {loc : Int}
  {locCount : Nat} {locType : Dtype} {rem : Int} {remCount : Nat} {remType : Dtype} {proc g : Nat}
  {handle : Option Nat}

theorem Gmr.Ok.member_of_pos (hr : mreg.Ok env.world env.cfg win)
    (hpos : 0 < (mreg.slice proc).size) : ∃ g, win.comm.rankOf proc = some g := by
  cases hg : win.comm.rankOf proc with
  | some g => exact ⟨g, rfl⟩
  | none =>
    rw [hr.outside proc hg] at hpos
    exact absurd hpos (by decide)

theorem Gmr.Covers.member (hc : mreg.Covers proc rem remCount remType)
    (hr : mreg.Ok env.world env.cfg win) : ∃ g, win.comm.rankOf proc = some g :=
  hr.member_of_pos (Int.lt_of_le_of_lt hc.nonneg hc.lt)

/-- The group of the region contains the process, with rank `g`. -/
structure Reaches (env : Env) (mreg : Gmr) (proc : Nat) (win : Win) (g : Nat) : Prop where
  ok : mreg.Ok env.world env.cfg win
  rank : win.comm.rankOf proc = some g

theorem lookupIn_some {ptr : Int} {regions : List Gmr}
    (h : lookupIn ptr proc regions = .ok (some mreg)) :
    mreg ∈ regions ∧ (mreg.slice proc).base ≤ ptr ∧
      ptr < (mreg.slice proc).base + (mreg.slice proc).size := by
  induction regions with
  | nil => cases h
  | cons r rest ih =>
    unfold lookupIn at h
    split at h
    · cases h
    · split at h
      · rename_i hin
        cases h
        exact ⟨List.mem_cons_self, hin⟩
      · obtain ⟨hmem, hin⟩ := ih h
        exact ⟨List.mem_cons_of_mem r hmem, hin⟩

theorem gmrLookup_reaches {ptr : Int} (h : gmrLookup env ptr proc = .ok (some mreg)) :
    ∃ win g, Reaches env mreg proc win g := by
  obtain ⟨hmem, hle, hlt⟩ := lookupIn_some h
  obtain ⟨win, hr⟩ := env.regions_ok mreg hmem
  obtain ⟨g, hg⟩ := hr.member_of_pos (by omega : 0 < (mreg.slice proc).size)
  exact ⟨win, g, hr, hg⟩

theorem gmrLookup_live {ptr : Int} (h : gmrLookup env ptr proc = .ok (some mreg))
    (hr : Reaches env mreg proc win g) : env.Live win := ⟨mreg, (lookupIn_some h).1, hr.ok.window⟩

theorem gmrRmaTyped_ok (hr : mreg.Ok env.world env.cfg win) (hg : win.comm.rankOf proc = some g)
    (hc : mreg.Covers proc rem remCount remType) (h : List Act) :
    gmrRmaTyped env kind atomic mreg loc locCount locType rem remCount remType proc handle h =
      (.ok (), .rma (rmaOf env kind atomic mreg win loc locCount locType rem remCount remType proc g
        handle) :: handleActs env g handle) := by
  simp only [gmrRmaTyped, translate_member hr.group hg, hr.getWindow, lift_ok_bind]
  rw [require_true (by omega), pure_bind_run, require_true ⟨hc.nonneg, hc.lt⟩, pure_bind_run,
    require_true hc.le, pure_bind_run, emit_bind_run]
  cases handle with
  | none => rfl
  | some hd => cases hreq : env.cfg.useRmaRequests <;> simp [handleActs, rmaOf, hreq]

theorem gmrRmaTyped_out_of_range (hr : mreg.Ok env.world env.cfg win)
    (hc : ¬ mreg.Covers proc rem remCount remType) (h : List Act) :
    ∃ e, gmrRmaTyped env kind atomic mreg loc locCount locType rem remCount remType proc handle h =
      (.error e, []) := by
  cases htr : translateAbsoluteToGroup env.world mreg.group proc with
  | error e => exact ⟨e, by simp [gmrRmaTyped, htr]⟩
  | ok v =>
    simp only [gmrRmaTyped, htr, hr.getWindow, lift_ok_bind]
    by_cases hv : 0 ≤ v
    · rw [require_true hv, pure_bind_run]
      by_cases hin : 0 ≤ mreg.disp proc rem ∧ mreg.disp proc rem < (mreg.slice proc).size
      · rw [require_true hin, pure_bind_run, require_false fun hle => hc ⟨hin.1, hin.2, hle⟩]
        exact ⟨_, rfl⟩
      · rw [require_false hin]
        exact ⟨_, rfl⟩
    · rw [require_false hv]
      exact ⟨_, rfl⟩

theorem gmrRmaTyped_eq_ok (hr : Reaches env mreg proc win g) {h acts : List Act}
    (hrun : gmrRmaTyped env kind atomic mreg loc locCount locType rem remCount remType proc handle h =
      (.ok (), acts)) :
    mreg.Covers proc rem remCount remType ∧
      acts = .rma (rmaOf env kind atomic mreg win loc locCount locType rem remCount remType proc g
        handle) :: handleActs env g handle := by
  by_cases hc : mreg.Covers proc rem remCount remType
  · rw [gmrRmaTyped_ok hr.ok hr.rank hc] at hrun
    exact ⟨hc, (Prod.mk.inj hrun).2.symm⟩
  · obtain ⟨e, he⟩ := gmrRmaTyped_out_of_range hr.ok hc h
    rw [he] at hrun
    cases hrun

end

end ArmciMpi
