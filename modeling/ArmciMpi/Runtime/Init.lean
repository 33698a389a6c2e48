import ArmciMpi.Lib.Transition
import ArmciMpi.Runtime.Group

/-!
# Initialisation and the groups of a process

`PARMCI_Init_thread_comm` fills in the world group first and reads the environment
afterwards, so the world group is made with the settings as they were before: in
the first initialisation all zero. `ARMCII_Group_init_from_comm` duplicates the
communicator of a group, for the creation of children, only if noncollective
groups are on. A process is modelled by its settings and the groups it holds.

`usable_iff` says when all groups of a process have that duplicate, and that the
groups made after the initialisation always have it.
-/

namespace ArmciMpi

-- ------------------------------
-- Settings
-- ------------------------------

structure Build where
  armciGroup : Bool
  /-- `OMPI_MAJOR_VERSION` of an Open MPI build. -/
  openMpi : Option Nat
  mpich : Bool
  useRmaRequests : Bool

abbrev Environ := String → Option String

def getenvBool (env : Environ) (varname : String) (default : Bool) : Bool :=
  match env varname with
  | none => default
  | some var =>
    match var.toList with
    | c :: _ => c = 'T' || c = 't' || c = '1' || c = 'y' || c = 'Y'
    | [] => false

def leadingDigits (cs : List Char) : Int :=
  (cs.takeWhile Char.isDigit).foldl (fun n c => n * 10 + (c.toNat - '0'.toNat)) 0

def isspace (c : Char) : Bool := c.isWhitespace || c = '\x0b' || c = '\x0c'

/-- The number `strtol` reads at the start of a text. -/
def leadingInt (var : String) : Int :=
  match var.toList.dropWhile isspace with
  | '-' :: cs => -leadingDigits cs
  | '+' :: cs => leadingDigits cs
  | cs => leadingDigits cs

/-- `atol` stops at the ends of `long`. -/
def atol (var : String) : Int := max (-longMax - 1) (min longMax (leadingInt var))

/-- The value is cut to `int` before it is clamped. -/
def getenvInt (env : Environ) (varname : String) (default : Int) : Int :=
  match env varname with
  | some var => (atol var).bmod (2 ^ 32)
  | none => default

/-- `ARMCII_GLOBAL_STATE = { 0 }`. -/
def GlobalState.zero (b : Build) : GlobalState where
  iovChecks := false
  iovBatchedLimit := 0
  iovDtypeChunk := 0
  noncollectiveGroups := false
  cacheRankTranslation := false
  explicitNbProgress := false
  rmaAtomicity := false
  endToEndFlush := false
  stridedMethod := .iov
  iovMethod := .auto
  shrBufMethod := .copy
  useRmaRequests := b.useRmaRequests

def noncollectiveSetting (b : Build) (env : Environ) (old : Bool) : Bool :=
  match env "ARMCI_NONCOLLECTIVE_GROUPS" with
  | some _ => getenvBool env "ARMCI_NONCOLLECTIVE_GROUPS" false
  | none => if b.armciGroup then true else old

def iovMethodSetting (b : Build) (env : Environ) : IovMethod :=
  let method := match env "ARMCI_IOV_METHOD" with
    | some "AUTO" => IovMethod.auto
    | some "CONSRV" => .consrv
    | some "DIRECT" => .direct
    | _ => .batched
  if b.openMpi.isSome then .batched else method

def stridedMethodSetting (b : Build) (env : Environ) : StridedMethod :=
  match env "ARMCI_STRIDED_METHOD" with
  | some "IOV" => .iov
  | some "DIRECT" => .direct
  | _ =>
    match b.openMpi with
    | some major => if major < 5 then .iov else .direct
    | none => .direct

def iovDtypeChunkDefault (b : Build) : Int :=
  match b.openMpi with
  | some major => if major ≥ 5 then 1 else 0
  | none => if b.mpich then 256 else 0

/-- The settings the initialisation reads, as far as the modelled code uses them. -/
def readSettings (b : Build) (env : Environ) (old : GlobalState) : GlobalState where
  iovChecks := getenvBool env "ARMCI_IOV_CHECKS" false
  iovBatchedLimit := max 0 (getenvInt env "ARMCI_IOV_BATCHED_LIMIT" 0)
  iovDtypeChunk := max 0 (getenvInt env "ARMCI_IOV_DTYPE_CHUNK" (iovDtypeChunkDefault b))
  noncollectiveGroups := noncollectiveSetting b env old.noncollectiveGroups
  cacheRankTranslation := getenvBool env "ARMCI_CACHE_RANK_TRANSLATION" true
  explicitNbProgress := getenvBool env "ARMCI_EXPLICIT_NB_PROGRESS" true
  rmaAtomicity := getenvBool env "ARMCI_RMA_ATOMICITY" false
  endToEndFlush := getenvBool env "ARMCI_NO_FLUSH_LOCAL" false
  stridedMethod := stridedMethodSetting b env
  iovMethod := iovMethodSetting b env
  shrBufMethod := if env "ARMCI_SHR_BUF_METHOD" = some "COPY" then .copy else .noguard
  useRmaRequests := b.useRmaRequests

-- ------------------------------
-- The groups of a process
-- ------------------------------

/-- A process: its settings, its groups, the world group first, and the number of
communicators MPI has made for it. -/
structure Process where
  cfg : GlobalState
  groups : List Group
  comms : Nat

def Group.withComm (out : Group) (comm : Option Comm) : Group := { out with comm := comm }

/-- `MPI_Comm_dup`. -/
def Comm.dup (c : Comm) (id : Nat) : Comm := { c with id := id }

/-- `ARMCII_Group_init_from_comm` on a variable whose communicator was just set. -/
def Process.made (w : World) (p : Process) (out : Group) (comm : Option Comm) : Group :=
  groupInitFromComm w p.cfg (match comm with
    | some c => c.dup (p.comms + 1)
    | none => w.comm) (out.withComm comm)

def Process.addGroup (w : World) (p : Process) (out : Group) (comm : Option Comm) : Process :=
  { p with groups := p.groups ++ [p.made w out comm], comms := p.comms + 2 }

/-- The group part of `PARMCI_Init_thread_comm`, then the environment. -/
def initThreadComm (w : World) (b : Build) (env : Environ) (start : GlobalState) (out : Group) :
    Process :=
  let p := Process.addGroup w ⟨start, [], w.comm.id⟩ out (some w.comm)
  { p with cfg := readSettings b env start }

inductive GroupCall
  | createChild (parent : Nat) (pidList : List Nat) (out : Group)
  /-- `MPI_Comm_split` may give any communicator, or none. -/
  | split (parent : Nat) (ranks : Option (List Nat)) (out : Group)
  | dup (parent : Nat) (out : Group)

def nullComm : String := "MPI_COMM_NULL"

def newComm (id : Nat) (ranks : List Nat) : Except String Comm :=
  if h : ranks.Nodup then .ok ⟨id, ranks, h⟩ else .error "MPI_ERR_RANK"

/-- The communicator of `ARMCI_Group_create_child`. The noncollective version passes the
duplicate of the parent to `MPI_Intercomm_create` if it merges at all. -/
def createChildComm (cfg : GlobalState) (parent : Group) (pidList : List Nat) (id : Nat) :
    Except String (Option Comm) :=
  match parent.comm with
  | none =>
    -- a process that is no member is sent away before the communicator is looked at
    if cfg.noncollectiveGroups ∧ ¬ pidList.any fun r => (r : Int) = parent.rank then .ok none
    else .error nullComm
  | some c => do
    let members := pidList.filterMap (c.ranks[·]?)
    if ¬ pidList.any fun r => (r : Int) = parent.rank then return none
    if cfg.noncollectiveGroups ∧ pidList.length ≠ 1 ∧ parent.noncollPgroupComm = none then
      throw nullComm
    return some (← newComm id members)

/-- `ARMCI_Group_free` calls `MPI_Comm_free` on the duplicate in noncollective mode. -/
def groupFree (cfg : GlobalState) (group : Group) : Except String Unit :=
  if group.comm ≠ none ∧ cfg.noncollectiveGroups ∧ group.noncollPgroupComm = none then
    .error nullComm
  else .ok ()

def Process.call (w : World) (p : Process) : GroupCall → Except String Process
  | .createChild parent pidList out =>
    match p.groups[parent]? with
    | some g => do
      let comm ← createChildComm p.cfg g pidList p.comms
      return p.addGroup w out comm
    | none => .error "no such group"
  | .split parent ranks out =>
    match p.groups[parent]?, ranks with
    | some _, none => .ok (p.addGroup w out none)
    | some _, some ranks => do
      let comm ← newComm p.comms ranks
      return p.addGroup w out (some comm)
    | none, _ => .error "no such group"
  | .dup parent out =>
    match p.groups[parent]?.bind Group.comm with
    | some c => .ok (p.addGroup w out (some (c.dup p.comms)))
    | none => .error nullComm

def groupSystem (w : World) (b : Build) (env : Environ) (start : GlobalState) (out : Group) :
    Lib.System Process GroupCall where
  init p := p = initThreadComm w b env start out
  next p a := (p.call w a).toOption

-- ------------------------------
-- Duplicates
-- ------------------------------

def Group.Usable (g : Group) : Prop :=
  ∀ c, g.comm = some c → ∃ d, g.noncollPgroupComm = some d ∧ d.ranks = c.ranks ∧ d.id ≠ c.id

/-- Creating a child of the group and freeing it never hands `MPI_COMM_NULL` to MPI. -/
def Group.Safe (cfg : GlobalState) (g : Group) : Prop :=
  g.comm ≠ none → (∀ pidList id, createChildComm cfg g pidList id ≠ .error nullComm) ∧
    groupFree cfg g = .ok ()

def Group.commIds (g : Group) : List Nat := (g.comm.toList ++ g.noncollPgroupComm.toList).map Comm.id

def Process.Private (p : Process) : Prop := (p.groups.flatMap Group.commIds).Nodup

section
variable {w : World} {b : Build} {env : Environ} {start : GlobalState} {out : Group} {p q : Process}
  {g : Group}

theorem newComm_ne {id : Nat} {ranks : List Nat} : newComm id ranks ≠ .error nullComm := by
  rw [newComm]
  split
  · exact fun h => by cases h
  · exact fun h => absurd (Except.error.inj h) (by decide)

theorem Group.Usable.safe (cfg : GlobalState) (h : g.Usable) : g.Safe cfg := by
  intro hcomm
  obtain ⟨c, hc⟩ := Option.ne_none_iff_exists'.mp hcomm
  obtain ⟨d, hd, -⟩ := h c hc
  have hd : g.noncollPgroupComm ≠ none := by simp [hd]
  refine ⟨fun pidList id => ?_, if_neg fun hbad => hd hbad.2.2⟩
  simp only [createChildComm, hc]
  split
  · exact fun h => by cases h
  · rw [if_neg fun hbad => hd hbad.2.2]
    cases hnew : newComm id (pidList.filterMap (c.ranks[·]?)) with
    | error e => exact fun h => newComm_ne (hnew.trans (congrArg _ (Except.error.inj h)))
    | ok c' => exact fun h => by cases h

theorem Process.call_adds {a : GroupCall} (h : p.call w a = .ok q) :
    ∃ out comm, q = p.addGroup w out comm ∧ ∀ c, comm = some c → c.id = p.comms := by
  have hnew : ∀ {id ranks c}, newComm id ranks = .ok c → c.id = id := by
    intro id ranks c h
    rw [newComm] at h
    split at h <;> cases h
    rfl
  cases a with
  | createChild parent pidList out =>
    simp only [call] at h
    split at h
    · rename_i g hg
      cases hc : createChildComm p.cfg g pidList p.comms with
      | error e =>
        rw [hc] at h
        cases h
      | ok comm =>
        rw [hc] at h
        cases h
        refine ⟨out, comm, rfl, fun c hcomm => ?_⟩
        subst hcomm
        simp only [createChildComm] at hc
        split at hc
        · split at hc <;> cases hc
        · split at hc
          · cases hc
          · split at hc
            · cases hc
            · rename_i c₀ _ _ _
              cases hn : newComm p.comms (pidList.filterMap (c₀.ranks[·]?)) with
              | error e =>
                rw [hn] at hc
                cases hc
              | ok c' =>
                rw [hn] at hc
                cases hc
                exact hnew hn
    · cases h
  | split parent ranks out =>
    simp only [call] at h
    split at h
    · cases h
      exact ⟨out, none, rfl, fun c hc => by cases hc⟩
    · rename_i ranks _
      cases hn : newComm p.comms ranks with
      | error e =>
        rw [hn] at h
        cases h
      | ok c' =>
        rw [hn] at h
        cases h
        refine ⟨out, some c', rfl, fun c hc => ?_⟩
        cases hc
        exact hnew hn
    · cases h
  | dup parent out =>
    simp only [call] at h
    split at h
    · rename_i c _
      cases h
      refine ⟨out, some (c.dup p.comms), rfl, fun c' hc' => ?_⟩
      cases hc'
      rfl
    · cases h

theorem made_comm (comm : Option Comm) : (p.made w out comm).comm = comm := by
  cases comm <;> rfl

theorem made_dup (comm : Option Comm) : (p.made w out comm).noncollPgroupComm =
    if p.cfg.noncollectiveGroups then comm.map (·.dup (p.comms + 1)) else none := by
  cases comm with
  | none =>
    simp only [Option.map_none, ite_self]
    rfl
  | some c => rfl

theorem made_usable {comm : Option Comm} (hon : p.cfg.noncollectiveGroups = true)
    (hid : ∀ c, comm = some c → c.id = p.comms) : (p.made w out comm).Usable := by
  intro c hc
  rw [made_comm] at hc
  subst hc
  rw [made_dup, if_pos hon]
  refine ⟨c.dup (p.comms + 1), rfl, rfl, ?_⟩
  rw [hid c rfl]
  exact Nat.succ_ne_self p.comms

theorem made_commIds {comm : Option Comm} (hid : ∀ c, comm = some c → c.id = p.comms) :
    (p.made w out comm).commIds.Sublist [p.comms, p.comms + 1] := by
  rw [Group.commIds, made_comm, made_dup]
  cases comm with
  | none => simp
  | some c =>
    have := hid c rfl
    split
    · simp [this, Comm.dup]
    · simp [this]

/-- What holds of a process with the world group `world`. -/
structure Process.Holds (world : Group) (p : Process) : Prop where
  on : p.cfg.noncollectiveGroups = true
  groups : ∃ rest, p.groups = world :: rest ∧ ∀ g ∈ rest, g.Usable
  ids : p.Private
  lt : ∀ id ∈ p.groups.flatMap Group.commIds, id < p.comms

theorem fresh_ids {ids new : List Nat} {n : Nat} (hnd : ids.Nodup) (hlt : ∀ id ∈ ids, id < n)
    (hnew : new.Sublist [n, n + 1]) : (ids ++ new).Nodup ∧ ∀ id ∈ ids ++ new, id < n + 2 := by
  have hmem : ∀ id ∈ new, id = n ∨ id = n + 1 := fun id hid => by simpa using hnew.subset hid
  refine ⟨List.nodup_append.mpr ⟨hnd, hnew.nodup (by simp), fun a ha b hb heq => ?_⟩,
    fun id hid => ?_⟩
  · have := hlt a ha
    have := hmem b hb
    omega
  · rcases List.mem_append.mp hid with hid | hid
    · have := hlt id hid
      omega
    · have := hmem id hid
      omega

theorem Process.Holds.step {world : Group} (h : p.Holds world) {a : GroupCall}
    (hcall : p.call w a = .ok q) : q.Holds world := by
  obtain ⟨out, comm, rfl, hid⟩ := p.call_adds hcall
  obtain ⟨rest, hgroups, husable⟩ := h.groups
  have hq : (p.addGroup w out comm).groups = p.groups ++ [p.made w out comm] := rfl
  have hnew : (p.made w out comm).commIds.Sublist [p.comms, p.comms + 1] := made_commIds hid
  have hfresh := fresh_ids h.ids h.lt hnew
  have hids : (p.addGroup w out comm).groups.flatMap Group.commIds =
      p.groups.flatMap Group.commIds ++ (p.made w out comm).commIds := by
    rw [hq, List.flatMap_append, List.flatMap_singleton]
  refine ⟨h.on, ⟨rest ++ [p.made w out comm], ?_, fun g hg => ?_⟩, ?_, ?_⟩
  · rw [hq, hgroups]
    rfl
  · rcases List.mem_append.mp hg with hg | hg
    · exact husable g hg
    · rw [List.mem_singleton.mp hg]
      exact made_usable h.on hid
  · rw [Private, hids]
    exact hfresh.1
  · rw [hids]
    exact hfresh.2

def worldGroup (w : World) (start : GlobalState) (out : Group) : Group :=
  Process.made w ⟨start, [], w.comm.id⟩ out (some w.comm)

theorem holds_init (hon : (readSettings b env start).noncollectiveGroups = true) :
    (initThreadComm w b env start out).Holds (worldGroup w start out) := by
  have hids : (worldGroup w start out).commIds.Sublist [w.comm.id, w.comm.id + 1] :=
    made_commIds fun c hc => by cases hc; rfl
  have hfresh : ([] ++ (worldGroup w start out).commIds).Nodup ∧
      ∀ id ∈ [] ++ (worldGroup w start out).commIds, id < w.comm.id + 2 :=
    fresh_ids List.nodup_nil (fun _ h => absurd h List.not_mem_nil) hids
  have hgroups : (initThreadComm w b env start out).groups.flatMap Group.commIds =
      [] ++ (worldGroup w start out).commIds := List.flatMap_singleton ..
  refine ⟨hon, ⟨[], rfl, fun _ h => absurd h List.not_mem_nil⟩, ?_, ?_⟩
  · rw [Process.Private, hgroups]
    exact hfresh.1
  · rw [hgroups]
    exact hfresh.2

theorem groupSystem_holds (hon : (readSettings b env start).noncollectiveGroups = true)
    (h : (groupSystem w b env start out).Reachable p) : p.Holds (worldGroup w start out) := by
  refine h.invariant (fun _ hp => hp ▸ holds_init hon) fun p a q _ hp hn => ?_
  simp only [groupSystem] at hn
  cases hc : p.call w a with
  | error e =>
    rw [hc] at hn
    cases hn
  | ok q' =>
    rw [hc] at hn
    cases hn
    exact hp.step hc

theorem worldGroup_usable : (worldGroup w start out).Usable ↔ start.noncollectiveGroups = true := by
  constructor
  · intro h
    obtain ⟨d, hd, -⟩ := h w.comm rfl
    rw [worldGroup, made_dup] at hd
    by_contra hoff
    rw [if_neg hoff] at hd
    cases hd
  · intro hon
    exact made_usable hon fun c hc => by cases hc; rfl

/-- With noncollective groups enabled, all groups of a process have a duplicate in all runs
exactly if the flag was set before the world group was made. The other groups always have one,
no two groups share a communicator, and a group with a duplicate is safe to use. -/
theorem usable_iff (w : World) (b : Build) (env : Environ) (start : GlobalState) (out : Group)
    (hon : (readSettings b env start).noncollectiveGroups = true) :
    ((∀ p, (groupSystem w b env start out).Reachable p →
        ∀ g ∈ p.groups, g.Usable ∧ g.Safe p.cfg) ↔ start.noncollectiveGroups = true) ∧
      ∀ p, (groupSystem w b env start out).Reachable p → p.Private ∧
        ∃ rest, p.groups = worldGroup w start out :: rest ∧
          ∀ g ∈ rest, g.Usable ∧ g.Safe p.cfg := by
  have hall : ∀ p, (groupSystem w b env start out).Reachable p → p.Private ∧
      ∃ rest, p.groups = worldGroup w start out :: rest ∧ ∀ g ∈ rest, g.Usable ∧ g.Safe p.cfg := by
    intro p hp
    have hholds := groupSystem_holds hon hp
    obtain ⟨rest, hgroups, husable⟩ := hholds.groups
    exact ⟨hholds.ids, rest, hgroups, fun g hg => ⟨husable g hg, (husable g hg).safe _⟩⟩
  refine ⟨⟨fun h => ?_, fun hstart p hp g hg => ?_⟩, hall⟩
  · have hfirst := h _ (.init rfl) (worldGroup w start out) List.mem_cons_self
    exact worldGroup_usable.mp hfirst.1
  · obtain ⟨-, rest, hgroups, hrest⟩ := hall p hp
    rw [hgroups] at hg
    rcases List.mem_cons.mp hg with rfl | hg
    · have husable : (worldGroup w start out).Usable := worldGroup_usable.mpr hstart
      exact ⟨husable, husable.safe _⟩
    · exact hrest g hg

end

def noncollectiveEnviron : Environ := fun varname =>
  if varname = "ARMCI_NONCOLLECTIVE_GROUPS" then some "1" else none

def plainBuild : Build := ⟨false, none, true, true⟩

/-- `ARMCI_GROUP_WORLD = {0}`. -/
def blankGroup : Group := ⟨none, none, 0, 0, none, none⟩

/-- After the first initialisation of two processes the world group has no duplicate, so that
creating a child with both and freeing the group hand `MPI_COMM_NULL` to MPI. -/
theorem worldGroup_not_usable :
    (readSettings plainBuild noncollectiveEnviron (.zero plainBuild)).noncollectiveGroups = true ∧
    ∃ p, (groupSystem pairWorld plainBuild noncollectiveEnviron (.zero plainBuild)
        blankGroup).Reachable p ∧
      ∃ g ∈ p.groups, g.comm = some pairWorld.comm ∧ g.noncollPgroupComm = none ∧
        createChildComm p.cfg g [0, 1] p.comms = .error nullComm ∧
        groupFree p.cfg g = .error nullComm :=
  ⟨by decide, _, .init rfl, _, List.mem_cons_self, rfl, rfl, rfl, by decide⟩

theorem usable_iff_child :
    (readSettings plainBuild noncollectiveEnviron (.zero plainBuild)).noncollectiveGroups = true ∧
    ∃ p, (groupSystem pairWorld plainBuild noncollectiveEnviron (.zero plainBuild) blankGroup).run
        (initThreadComm pairWorld plainBuild noncollectiveEnviron (.zero plainBuild) blankGroup)
        [.dup 0 blankGroup, .createChild 1 [1, 0] blankGroup] = some p ∧
      ∃ world rest, p.groups = world :: rest ∧ rest.length = 2 ∧ ∀ g ∈ rest, g.Usable := by
  have hr : (groupSystem pairWorld plainBuild noncollectiveEnviron (.zero plainBuild)
      blankGroup).run
        (initThreadComm pairWorld plainBuild noncollectiveEnviron (.zero plainBuild) blankGroup)
        [.dup 0 blankGroup, .createChild 1 [1, 0] blankGroup] = some _ := rfl
  obtain ⟨-, rest, hgroups, hrest⟩ := (usable_iff pairWorld plainBuild noncollectiveEnviron
    (.zero plainBuild) blankGroup (by decide)).2 _ (Lib.System.Reachable.run (.init rfl) hr)
  refine ⟨by decide, _, hr, _, rest, hgroups, ?_, fun g hg => (hrest g hg).1⟩
  exact congrArg (fun gs => List.length gs - 1) hgroups.symm

end ArmciMpi
