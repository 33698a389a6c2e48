import ArmciMpi.Lib.Stateful
import ArmciMpi.Runtime.GroupCreate
import ArmciMpi.Runtime.Init

/-!
# Group variables and their tables

A variable of type `ARMCI_Group` holds pointers to its two translation tables.
A constructor takes a communicator from MPI and fills in the other fields of a
variable with any contents (`GroupVar.initFromComm`, which is
`groupInitFromComm` with the tables on a heap); `groupFree` releases what the
pointers name. With caching on, a process outside of the new group keeps the
pointers that were in its variable (`group_determined_iff`).
-/

namespace ArmciMpi

open Lib Stateful

-- ------------------------------
-- The heap
-- ------------------------------

/-- The blocks that `malloc` has given out and `free` has not taken back; 0 is the
null pointer. -/
structure Heap where
  next : Nat
  blocks : Nat → Option (List Int)
  next_pos : 0 < next
  null : blocks 0 = none
  unused : ∀ a, next ≤ a → blocks a = none

def Heap.insert (h : Heap) (table : List Int) : Heap where
  next := h.next + 1
  blocks a := if a = h.next then some table else h.blocks a
  next_pos := Nat.succ_pos _
  null := by rw [if_neg h.next_pos.ne, h.null]
  unused a ha := by rw [if_neg (by omega), h.unused a (by omega)]

def Heap.erase (h : Heap) (ptr : Nat) : Heap where
  next := h.next
  blocks a := if a = ptr then none else h.blocks a
  next_pos := h.next_pos
  null := by simp [h.null]
  unused a ha := by simp [h.unused a ha]

@[simp] theorem Heap.insert_blocks (h : Heap) (table : List Int) (a : Nat) :
    (h.insert table).blocks a = if a = h.next then some table else h.blocks a := rfl

@[simp] theorem Heap.erase_blocks (h : Heap) (ptr a : Nat) :
    (h.erase ptr).blocks a = if a = ptr then none else h.blocks a := rfl

abbrev HeapM := Stateful Heap

def malloc (table : List Int) : HeapM Nat := fun h => .ok (h.next, h.insert table)

def free (ptr : Nat) : HeapM Unit := fun h =>
  if h.blocks ptr = none then .error "free(): invalid pointer" else .ok ((), h.erase ptr)

theorem free_run {h : Heap} {ptr : Nat} (hb : h.blocks ptr ≠ none) :
    free ptr h = .ok ((), h.erase ptr) := if_neg hb

theorem free_eq_ok {h h' : Heap} {ptr : Nat} {u : Unit} (hrun : free ptr h = .ok (u, h')) :
    h.blocks ptr ≠ none ∧ h' = h.erase ptr := by
  unfold free at hrun
  split at hrun
  · cases hrun
  · rename_i hb
    cases hrun
    exact ⟨hb, rfl⟩

-- ------------------------------
-- Group variables
-- ------------------------------

/-- `ARMCI_Group` with pointers to its tables. -/
structure GroupVar where
  comm : Option Comm
  noncollPgroupComm : Option Comm
  rank : Int
  size : Int
  absToGrp : Nat
  grpToAbs : Nat

namespace GroupVar

def view (h : Heap) (v : GroupVar) : Group where
  comm := v.comm
  noncollPgroupComm := v.noncollPgroupComm
  rank := v.rank
  size := v.size
  grpToAbs := h.blocks v.grpToAbs
  absToGrp := h.blocks v.absToGrp

/-- The fields that do not depend on caching; `dup` is what `MPI_Comm_dup` of the
group's communicator gives. -/
def initFields (w : World) (cfg : GlobalState) (dup : Comm) (v : GroupVar) : GroupVar :=
  let v :=
    match v.comm with
    | some c => { v with size := c.ranks.length, rank := w.translateRank c w.rank }
    | none => { v with rank := -1, size := 0 }
  if cfg.noncollectiveGroups ∧ v.comm ≠ none then { v with noncollPgroupComm := some dup }
  else { v with noncollPgroupComm := none }

def newTables (w : World) (c : Comm) : HeapM (Nat × Nat) := do
  let absToGrp ← malloc ((List.range w.size).map (w.translateRank c))
  let grpToAbs ← malloc (c.ranks.map (w.translateRank w.comm))
  let ranks ← malloc ((List.range w.size).map Int.ofNat)
  free ranks
  return (absToGrp, grpToAbs)

/-- `ARMCII_Group_init_from_comm`. -/
def initFromComm (w : World) (cfg : GlobalState) (dup : Comm) (v : GroupVar) : HeapM GroupVar := do
  let v := v.initFields w cfg dup
  if cfg.cacheRankTranslation then
    match v.comm with
    | some c =>
      let (absToGrp, grpToAbs) ← newTables w c
      return { v with absToGrp, grpToAbs }
    | none => return v
  else
    return { v with absToGrp := 0, grpToAbs := 0 }

/-- `ARMCI_Group_create_child`, once the members have their communicator. -/
def groupCreateChild (w : World) (cfg : GlobalState) (dup : Comm) (comm : Option Comm)
    (v : GroupVar) : HeapM GroupVar :=
  initFromComm w cfg dup { v with comm := comm }

/-- A group from an MPI call that may fail; the first result is the error code. -/
def groupFromCall (w : World) (cfg : GlobalState) (dup : Comm) (call : Except Int (Option Comm))
    (v : GroupVar) : HeapM (Int × GroupVar) := do
  match call with
  | .error err => return (err, v)
  | .ok comm =>
    let v ← initFromComm w cfg dup { v with comm := comm }
    return (0, v)

/-- `ARMCIX_Group_split` with the result of `MPI_Comm_split`. -/
def groupSplit (w : World) (cfg : GlobalState) (dup : Comm) (split : Except Int (Option Comm))
    (v : GroupVar) : HeapM (Int × GroupVar) := groupFromCall w cfg dup split v

/-- `ARMCIX_Group_dup` with the result of `MPI_Comm_dup`. -/
def groupDup (w : World) (cfg : GlobalState) (dup : Comm) (dupComm : Except Int (Option Comm))
    (v : GroupVar) : HeapM (Int × GroupVar) := groupFromCall w cfg dup dupComm v

/-- The communicators of the variable are freed; `MPI_Comm_free` leaves
`MPI_COMM_NULL`. -/
def commFree (cfg : GlobalState) (v : GroupVar) : Except String GroupVar :=
  if v.comm = none then .ok v
  else if cfg.noncollectiveGroups then
    if v.noncollPgroupComm = none then .error nullComm
    else .ok { v with comm := none, noncollPgroupComm := none }
  else .ok { v with comm := none }

def freeTable (ptr : Nat) : HeapM Unit := if ptr ≠ 0 then free ptr else pure ()

/-- `ARMCI_Group_free`. -/
def groupFree (cfg : GlobalState) (v : GroupVar) : HeapM GroupVar := do
  let v ← commFree cfg v
  freeTable v.absToGrp
  freeTable v.grpToAbs
  return { v with rank := -1, size := 0 }

end GroupVar

-- ------------------------------
-- What the pointers are
-- ------------------------------

section
variable {w : World} {cfg : GlobalState} {dup : Comm} {v : GroupVar} {c : Comm} {h : Heap}

theorem GroupVar.initFields_some (w : World) (cfg : GlobalState) (dup : Comm)
    (hc : v.comm = some c) : v.initFields w cfg dup = { v with
      size := c.ranks.length
      rank := w.translateRank c w.rank
      noncollPgroupComm := if cfg.noncollectiveGroups then some dup else none } := by
  obtain ⟨comm, noncoll, rank, size, absToGrp, grpToAbs⟩ := v
  obtain rfl : comm = some c := hc
  cases hnon : cfg.noncollectiveGroups <;> simp [GroupVar.initFields, hnon]

theorem GroupVar.initFields_none (w : World) (cfg : GlobalState) (dup : Comm)
    (hc : v.comm = none) : v.initFields w cfg dup =
      { v with size := 0, rank := -1, noncollPgroupComm := none } := by
  obtain ⟨comm, noncoll, rank, size, absToGrp, grpToAbs⟩ := v
  obtain rfl : comm = none := hc
  simp [GroupVar.initFields]

def Heap.withTables (h : Heap) (w : World) (c : Comm) : Heap :=
  (((h.insert ((List.range w.size).map (w.translateRank c))).insert
    (c.ranks.map (w.translateRank w.comm))).insert ((List.range w.size).map Int.ofNat)).erase
      (h.next + 2)

theorem newTables_run (w : World) (c : Comm) (h : Heap) :
    GroupVar.newTables w c h = .ok ((h.next, h.next + 1), h.withTables w c) := by
  unfold GroupVar.newTables
  iterate 3 rw [bind_ok rfl]
  rw [bind_ok (free_run (by simp))]
  rfl

structure NewTables (w : World) (c : Comm) (h : Heap) (v : GroupVar) (h' : Heap) : Prop where
  absToGrp : h'.blocks v.absToGrp = some ((List.range w.size).map (w.translateRank c))
  grpToAbs : h'.blocks v.grpToAbs = some (c.ranks.map (w.translateRank w.comm))
  fresh : h.blocks v.absToGrp = none ∧ h.blocks v.grpToAbs = none
  distinct : v.absToGrp ≠ v.grpToAbs
  frame : ∀ a, a ≠ v.absToGrp → a ≠ v.grpToAbs → h'.blocks a = h.blocks a

theorem newTables_withTables (w : World) (c : Comm) (h : Heap) (habs : v.absToGrp = h.next)
    (hgrp : v.grpToAbs = h.next + 1) : NewTables w c h v (h.withTables w c) := by
  have hnext := h.unused h.next (Nat.le_refl _)
  have hnext' := h.unused (h.next + 1) (Nat.le_succ _)
  have hnext₂ := h.unused (h.next + 2) (by omega)
  have hlast : h.next ≠ h.next + 2 := by omega
  refine ⟨?_, ?_, ?_, ?_, fun a h₁ h₂ => ?_⟩
  · simp [habs, Heap.withTables, Heap.insert, hlast]
  · simp [hgrp, Heap.withTables, Heap.insert]
  · rw [habs, hgrp]
    exact ⟨hnext, hnext'⟩
  · omega
  · rw [habs] at h₁
    rw [hgrp] at h₂
    by_cases h₃ : a = h.next + 2
    · simp [Heap.withTables, h₃, hnext₂]
    · simp [Heap.withTables, Heap.insert, h₁, h₂, h₃]

structure Filled (w : World) (cfg : GlobalState) (dup c : Comm) (h : Heap) (v' : GroupVar)
    (h' : Heap) : Prop where
  comm : v'.comm = some c
  rank : v'.rank = w.translateRank c w.rank
  size : v'.size = c.ranks.length
  noncoll : v'.noncollPgroupComm = if cfg.noncollectiveGroups then some dup else none
  cached : cfg.cacheRankTranslation = true → NewTables w c h v' h'
  uncached : cfg.cacheRankTranslation = false → v'.absToGrp = 0 ∧ v'.grpToAbs = 0 ∧ h' = h

theorem initFromComm_some (w : World) (cfg : GlobalState) (dup : Comm) (hc : v.comm = some c)
    (h : Heap) :
    ∃ v' h', GroupVar.initFromComm w cfg dup v h = .ok (v', h') ∧ Filled w cfg dup c h v' h' := by
  unfold GroupVar.initFromComm
  rw [GroupVar.initFields_some w cfg dup hc]
  cases hcache : cfg.cacheRankTranslation with
  | false => exact ⟨_, h, rfl, hc, rfl, rfl, rfl, fun hon => absurd (hcache.symm.trans hon)
      Bool.false_ne_true, fun _ => ⟨rfl, rfl, rfl⟩⟩
  | true =>
    simp only [if_true, hc]
    rw [bind_ok (newTables_run w c h)]
    exact ⟨_, _, rfl, rfl, rfl, rfl, rfl, fun _ => newTables_withTables w c h rfl rfl,
      fun hoff => absurd (hoff.symm.trans hcache) Bool.false_ne_true⟩

theorem initFromComm_none (w : World) (cfg : GlobalState) (dup : Comm) (hc : v.comm = none)
    (h : Heap) :
    GroupVar.initFromComm w cfg dup v h = .ok ({ v with
      size := 0
      rank := -1
      noncollPgroupComm := none
      absToGrp := if cfg.cacheRankTranslation then v.absToGrp else 0
      grpToAbs := if cfg.cacheRankTranslation then v.grpToAbs else 0 }, h) := by
  unfold GroupVar.initFromComm
  rw [GroupVar.initFields_none w cfg dup hc]
  cases hcache : cfg.cacheRankTranslation with
  | false => rfl
  | true =>
    simp only [if_true, hc]
    rfl

theorem freeTable_null (h : Heap) : GroupVar.freeTable 0 h = .ok ((), h) := rfl

theorem Heap.ne_zero {ptr : Nat} (hb : h.blocks ptr ≠ none) : ptr ≠ 0 := by
  rintro rfl
  exact hb h.null

theorem freeTable_run {ptr : Nat} (hb : h.blocks ptr ≠ none) :
    GroupVar.freeTable ptr h = .ok ((), h.erase ptr) := by
  rw [GroupVar.freeTable, if_pos (Heap.ne_zero hb), free_run hb]

theorem freeTable_eq_ok {ptr : Nat} {u : Unit} {h' : Heap}
    (hrun : GroupVar.freeTable ptr h = .ok (u, h')) :
    (ptr = 0 ∧ h' = h) ∨ (h.blocks ptr ≠ none ∧ h' = h.erase ptr) := by
  unfold GroupVar.freeTable at hrun
  split at hrun
  · exact .inr (free_eq_ok hrun)
  · rename_i hptr
    cases hrun
    exact .inl ⟨not_not.mp hptr, rfl⟩

theorem commFree_ok (hdup : v.comm ≠ none → cfg.noncollectiveGroups = true →
    v.noncollPgroupComm ≠ none) : ∃ v', GroupVar.commFree cfg v = .ok v' ∧
      v'.absToGrp = v.absToGrp ∧ v'.grpToAbs = v.grpToAbs := by
  unfold GroupVar.commFree
  split
  · exact ⟨v, rfl, rfl, rfl⟩
  · rename_i hc
    split
    · rename_i hon
      rw [if_neg (hdup hc hon)]
      exact ⟨_, rfl, rfl, rfl⟩
    · exact ⟨_, rfl, rfl, rfl⟩

theorem groupFree_run {h₁ h₂ : Heap} (hdup : v.comm ≠ none → cfg.noncollectiveGroups = true →
      v.noncollPgroupComm ≠ none) (habs : GroupVar.freeTable v.absToGrp h = .ok ((), h₁))
    (hgrp : GroupVar.freeTable v.grpToAbs h₁ = .ok ((), h₂)) :
    ∃ v', GroupVar.groupFree cfg v h = .ok (v', h₂) := by
  obtain ⟨v', hcomm, ha, hg⟩ := commFree_ok hdup
  refine ⟨{ v' with rank := -1, size := 0 }, ?_⟩
  unfold GroupVar.groupFree
  rw [bind_ok (lift_ok hcomm h), ha, bind_ok habs, hg, bind_ok hgrp]
  rfl

theorem groupFree_eq_ok {v' : GroupVar} {h₂ : Heap} (hc : v.comm = none)
    (hrun : GroupVar.groupFree cfg v h = .ok (v', h₂)) : ∃ h₁,
      GroupVar.freeTable v.absToGrp h = .ok ((), h₁) ∧
      GroupVar.freeTable v.grpToAbs h₁ = .ok ((), h₂) := by
  have hcomm : GroupVar.commFree cfg v = .ok v := if_pos hc
  unfold GroupVar.groupFree at hrun
  rw [bind_ok (lift_ok hcomm h)] at hrun
  obtain ⟨u, h₁, habs, hrun⟩ := bind_eq_ok hrun
  obtain ⟨u', h₂', hgrp, hrun⟩ := bind_eq_ok hrun
  cases hrun
  exact ⟨h₁, habs, hgrp⟩

theorem initFromComm_view (w : World) (cfg : GlobalState) (dup : Comm) (v : GroupVar) (h : Heap) :
    ∃ v' h', GroupVar.initFromComm w cfg dup v h = .ok (v', h') ∧
      v'.view h' = groupInitFromComm w cfg dup (v.view h) := by
  cases hc : v.comm with
  | none =>
    refine ⟨_, h, initFromComm_none w cfg dup hc h, ?_⟩
    cases hcache : cfg.cacheRankTranslation <;>
      simp [GroupVar.view, groupInitFromComm, hc, hcache, h.null]
  | some c =>
    obtain ⟨v', h', hrun, hv⟩ := initFromComm_some w cfg dup hc h
    refine ⟨v', h', hrun, ?_⟩
    cases hcache : cfg.cacheRankTranslation with
    | false =>
      obtain ⟨ha, hg, rfl⟩ := hv.uncached hcache
      simp [GroupVar.view, groupInitFromComm, hc, hcache, hv.comm, hv.rank, hv.size, hv.noncoll,
        ha, hg, h'.null]
    | true =>
      have ht := hv.cached hcache
      simp [GroupVar.view, groupInitFromComm, hc, hcache, hv.comm, hv.rank, hv.size, hv.noncoll,
        ht.absToGrp, ht.grpToAbs]

end

-- ------------------------------
-- The constructors
-- ------------------------------

inductive NewGroup
  | createChild (pidList : List Nat)
  /-- What each process passes; without a colour it passes `MPI_UNDEFINED`. -/
  | split (color : Nat → Option Int) (key : Nat → Int)
  | dup

namespace NewGroup

/-- The world ranks of the new group on one process, in the order of the group. -/
def members (parent : Comm) (p : Nat) : NewGroup → Option (List Nat)
  | createChild pidList =>
    let ranks := pidList.filterMap (parent.ranks[·]?)
    if p ∈ ranks then some ranks else none
  | split color key =>
    (color p).map fun c =>
      (parent.ranks.filter fun q => color q = some c).mergeSort fun q r => key q ≤ key r
  | dup => some parent.ranks

inductive Gives (cfg : GlobalState) (parent : Comm) (p : Nat) : NewGroup → Option Comm → Prop
  | collective {pidList : List Nat} {comm : Option Comm} (hoff : cfg.noncollectiveGroups = false)
      (hcomm : comm.map Comm.ranks = (createChild pidList).members parent p) :
      Gives cfg parent p (.createChild pidList) comm
  | noncollective {pidList : List (Fin parent.ranks.length)} {me : Fin parent.ranks.length}
      {s : Groups.State parent.ranks.length} {out : Option (Groups.MemberComm parent.ranks.length)}
      {comm : Option Comm} (hon : cfg.noncollectiveGroups = true) (hnd : pidList.Nodup)
      (hme : parent.ranks.get me = p) (hs : (Groups.system pidList).Reachable s)
      (hout : s.loc me = .returned out)
      (hcomm : comm.map Comm.ranks = out.map fun c => c.members.map parent.ranks.get) :
      Gives cfg parent p (.createChild (pidList.map Fin.val)) comm
  | split {color : Nat → Option Int} {key : Nat → Int} {comm : Option Comm}
      (hcomm : comm.map Comm.ranks = (NewGroup.split color key).members parent p) :
      Gives cfg parent p (.split color key) comm
  | dup {comm : Option Comm} (hcomm : comm.map Comm.ranks = NewGroup.dup.members parent p) :
      Gives cfg parent p .dup comm

def run (w : World) (cfg : GlobalState) (dup : Comm) (comm : Option Comm) (v : GroupVar) :
    NewGroup → HeapM (Int × GroupVar)
  | createChild _ => do
    let v ← v.groupCreateChild w cfg dup comm
    return (0, v)
  | split _ _ => v.groupSplit w cfg dup (.ok comm)
  | .dup => v.groupDup w cfg dup (.ok comm)

variable {w : World} {cfg : GlobalState} {dup parent : Comm} {v : GroupVar} {comm : Option Comm}
  {p : Nat} {call : NewGroup}

theorem run_eq (call : NewGroup) : call.run w cfg dup comm v = do
    let v ← GroupVar.initFromComm w cfg dup { v with comm := comm }
    return (0, v) := by
  cases call <;> rfl

theorem filterMap_ranks (parent : Comm) (pidList : List (Fin parent.ranks.length)) :
    (pidList.map Fin.val).filterMap (parent.ranks[·]?) = pidList.map parent.ranks.get := by
  rw [List.filterMap_map, ← List.filterMap_eq_map]
  refine List.filterMap_congr fun i _ => ?_
  exact List.getElem?_eq_getElem i.isLt

theorem Gives.ranks (h : call.Gives cfg parent p comm) :
    comm.map Comm.ranks = call.members parent p := by
  cases h with
  | collective hoff hcomm => exact hcomm
  | split hcomm => exact hcomm
  | dup hcomm => exact hcomm
  | @noncollective pidList me s out comm hon hnd hme hs hout hcomm =>
    have hinv := (Groups.reachable_inv hnd hs).returned hout
    have hinj : Function.Injective parent.ranks.get := List.nodup_iff_injective_get.mp parent.nodup
    have hmem : p ∈ pidList.map parent.ranks.get ↔ me ∈ pidList := by
      rw [← hme, List.mem_map_of_injective hinj]
    calc comm.map Comm.ranks
        = (out.map Groups.MemberComm.members).map (List.map parent.ranks.get) := by
          rw [hcomm, Option.map_map]
          rfl
      _ = (createChild (pidList.map Fin.val)).members parent p := by
          rw [hinv, Groups.createCommCollective, members, filterMap_ranks]
          by_cases h : me ∈ pidList <;> simp [h, hmem]

theorem mem_of_members (hp : p ∈ parent.ranks) {ranks : List Nat}
    (h : call.members parent p = some ranks) : p ∈ ranks := by
  cases call with
  | createChild pidList =>
    simp only [members] at h
    split at h
    · rename_i hmem
      cases h
      exact hmem
    · cases h
  | split color key =>
    simp only [members, Option.map_eq_some_iff] at h
    obtain ⟨c, hc, rfl⟩ := h
    rw [List.mem_mergeSort, List.mem_filter]
    exact ⟨hp, by simpa using hc⟩
  | dup =>
    cases h
    exact hp

/-- What a constructor should leave in a variable, whatever it held before. -/
structure Determined (w : World) (cfg : GlobalState) (dup parent : Comm) (call : NewGroup)
    (h : Heap) (v' : GroupVar) (h' : Heap) : Prop where
  comm : v'.comm.map Comm.ranks = call.members parent w.rank
  null : v'.comm = none → v'.rank = -1 ∧ v'.size = 0 ∧ v'.noncollPgroupComm = none ∧
    v'.absToGrp = 0 ∧ v'.grpToAbs = 0 ∧ h' = h
  member : ∀ c, v'.comm = some c →
    (∃ r, c.rankOf w.rank = some r ∧ v'.rank = r) ∧ Filled w cfg dup c h v' h'

/-- `ARMCI_Group_free` returns and releases what the constructor has allocated: the heap
has the blocks from before the constructor. -/
def FreesOwn (cfg : GlobalState) (h : Heap) (v' : GroupVar) (h' : Heap) : Prop :=
  ∃ v'' h'', GroupVar.groupFree cfg v' h' = .ok (v'', h'') ∧ h''.blocks = h.blocks

/-- The pointers of a process outside of the group were null if tables are cached. -/
def Clean (cfg : GlobalState) (parent : Comm) (p : Nat) (call : NewGroup) (v : GroupVar) : Prop :=
  cfg.cacheRankTranslation = true → call.members parent p = none →
    v.absToGrp = 0 ∧ v.grpToAbs = 0

theorem freesOwn_null {h : Heap} (hdup : v.comm ≠ none → cfg.noncollectiveGroups = true →
      v.noncollPgroupComm ≠ none) (habs : v.absToGrp = 0) (hgrp : v.grpToAbs = 0) :
    FreesOwn cfg h v h := by
  obtain ⟨v', hrun⟩ := groupFree_run hdup (h := h) (by rw [habs, freeTable_null])
    (by rw [hgrp, freeTable_null])
  exact ⟨v', h, hrun, rfl⟩

theorem freesOwn_newTables {c : Comm} {h h' : Heap} (hdup : v.comm ≠ none →
      cfg.noncollectiveGroups = true → v.noncollPgroupComm ≠ none)
    (ht : NewTables w c h v h') : FreesOwn cfg h v h' := by
  have habs : h'.blocks v.absToGrp ≠ none := by simp [ht.absToGrp]
  have hgrp : (h'.erase v.absToGrp).blocks v.grpToAbs ≠ none := by
    simp [ht.distinct.symm, ht.grpToAbs]
  obtain ⟨v', hrun⟩ := groupFree_run hdup (freeTable_run habs) (freeTable_run hgrp)
  refine ⟨v', _, hrun, funext fun a => ?_⟩
  by_cases h₁ : a = v.absToGrp
  · simp [h₁, ht.fresh.1]
  · by_cases h₂ : a = v.grpToAbs
    · simp [h₂, ht.fresh.2]
    · simp [h₁, h₂, ht.frame a h₁ h₂]

/-- Freeing a pointer that the constructor did not set either aborts or releases a block
of somebody else. -/
theorem null_of_freesOwn {h : Heap} (hc : v.comm = none) (hfree : FreesOwn cfg h v h) :
    v.absToGrp = 0 ∧ v.grpToAbs = 0 := by
  obtain ⟨v'', h'', hrun, hblocks⟩ := hfree
  obtain ⟨h₁, habs, hgrp⟩ := groupFree_eq_ok hc hrun
  have hgrp0 : v.grpToAbs = 0 ∧ h'' = h₁ := by
    obtain h0 | ⟨hb, rfl⟩ := freeTable_eq_ok hgrp
    · exact h0
    · have hnone : h.blocks v.grpToAbs = none := by rw [← hblocks]; simp
      obtain ⟨-, rfl⟩ | ⟨-, rfl⟩ := freeTable_eq_ok habs
      · exact absurd hnone hb
      · exact absurd (by simp [hnone]) hb
  obtain ⟨hgrp0, rfl⟩ := hgrp0
  obtain ⟨habs0, -⟩ | ⟨hb, rfl⟩ := freeTable_eq_ok habs
  · exact ⟨habs0, hgrp0⟩
  · exact absurd (by rw [← hblocks]; simp) hb

/-- Every constructor returns. The fields of the variable are determined by the call, and
`ARMCI_Group_free` then releases what the constructor allocated, exactly if the pointers
of a process outside of the group were null already or tables are not cached. -/
theorem group_determined_iff (w : World) (cfg : GlobalState) (dup parent : Comm) (call : NewGroup)
    (comm : Option Comm) (hp : w.rank ∈ parent.ranks)
    (hgives : call.Gives cfg parent w.rank comm) (v : GroupVar) (h : Heap) :
    ∃ v' h', call.run w cfg dup comm v h = .ok ((0, v'), h') ∧
      (call.Determined w cfg dup parent h v' h' ↔ call.Clean cfg parent w.rank v) ∧
      (FreesOwn cfg h v' h' ↔ call.Clean cfg parent w.rank v) := by
  have hranks := hgives.ranks
  rw [run_eq]
  cases comm with
  | none =>
    have hnone : call.members parent w.rank = none := hranks.symm
    rw [bind_ok (initFromComm_none w cfg dup rfl h)]
    refine ⟨_, h, rfl, ?_⟩
    have hclean : call.Clean cfg parent w.rank v ↔
        (if cfg.cacheRankTranslation then v.absToGrp else 0) = 0 ∧
        (if cfg.cacheRankTranslation then v.grpToAbs else 0) = 0 := by
      cases hcache : cfg.cacheRankTranslation <;> simp [Clean, hcache, hnone]
    rw [hclean]
    refine ⟨⟨fun hd => ?_, fun ⟨ha, hg⟩ => ?_⟩, ⟨fun hf => null_of_freesOwn rfl hf, fun ⟨ha, hg⟩ =>
      freesOwn_null (fun hc => absurd rfl hc) ha hg⟩⟩
    · obtain ⟨-, -, -, ha, hg, -⟩ := hd.null rfl
      exact ⟨ha, hg⟩
    · exact ⟨hranks, fun _ => ⟨rfl, rfl, rfl, ha, hg, rfl⟩, fun c hc => absurd hc.symm (by simp)⟩
  | some c =>
    have hsome : call.members parent w.rank = some c.ranks := hranks.symm
    have hclean : call.Clean cfg parent w.rank v := fun _ hnone =>
      absurd (hsome.symm.trans hnone) (Option.some_ne_none _)
    obtain ⟨v', h', hrun, hv⟩ := initFromComm_some w cfg dup (v := { v with comm := some c }) rfl h
    rw [bind_ok hrun]
    refine ⟨v', h', rfl, ⟨fun _ => hclean, fun _ => ?_⟩, ⟨fun _ => hclean, fun _ => ?_⟩⟩
    · obtain ⟨r, hr⟩ := Option.isSome_iff_exists.mp
        (Comm.rankOf_isSome.mpr (mem_of_members hp hsome))
      refine ⟨by rw [hv.comm, hranks], fun hnone => ?_, fun c' hc' => ?_⟩
      · exact absurd (hv.comm.symm.trans hnone) (Option.some_ne_none _)
      · obtain rfl : c' = c := Option.some.inj (hc'.symm.trans hv.comm)
        exact ⟨⟨r, hr, by rw [hv.rank, World.translateRank, hr]⟩, hv⟩
    · have hdup : v'.comm ≠ none → cfg.noncollectiveGroups = true →
          v'.noncollPgroupComm ≠ none := fun _ hnon => by
        rw [hv.noncoll, if_pos hnon]
        exact Option.some_ne_none dup
      cases hcache : cfg.cacheRankTranslation with
      | true => exact freesOwn_newTables hdup (hv.cached hcache)
      | false =>
        obtain ⟨ha, hg, rfl⟩ := hv.uncached hcache
        exact freesOwn_null hdup ha hg

def plainSettings : GlobalState := readSettings plainBuild (fun _ => none) (.zero plainBuild)

def emptyHeap : Heap := ⟨1, fun _ => none, Nat.one_pos, rfl, fun _ _ => rfl⟩

def staleVar : GroupVar := ⟨none, none, 0, 0, 7, 7⟩

/-- Rank 0 calls `ARMCI_Group_create_child` for a group of rank 1 only; its pointers stay,
and `ARMCI_Group_free` hands them to `free`. -/
theorem group_not_determined : plainSettings.cacheRankTranslation = true ∧
    (createChild [1]).Gives plainSettings pairWorld.comm pairWorld.rank none ∧
    (createChild [1]).run pairWorld plainSettings pairWorld.comm none staleVar emptyHeap =
      .ok ((0, { staleVar with rank := -1 }), emptyHeap) ∧
    GroupVar.groupFree plainSettings { staleVar with rank := -1 } emptyHeap =
      .error "free(): invalid pointer" :=
  ⟨rfl, .collective rfl rfl, rfl, rfl⟩

theorem group_determined_iff_member : ∃ v' h',
    (createChild [1, 0]).run pairWorld plainSettings pairWorld.comm (some ⟨1, [1, 0], by decide⟩)
      staleVar emptyHeap = .ok ((0, v'), h') ∧
    (createChild [1, 0]).Determined pairWorld plainSettings pairWorld.comm pairWorld.comm
      emptyHeap v' h' ∧ FreesOwn plainSettings emptyHeap v' h' := by
  obtain ⟨v', h', hrun, hdet, hfree⟩ := group_determined_iff pairWorld plainSettings pairWorld.comm
    pairWorld.comm (createChild [1, 0]) (some ⟨1, [1, 0], by decide⟩) (by decide)
    (.collective rfl rfl) staleVar emptyHeap
  have hclean : (createChild [1, 0]).Clean plainSettings pairWorld.comm pairWorld.rank staleVar :=
    fun _ hnone => absurd hnone (by decide)
  exact ⟨v', h', hrun, hdet.mpr hclean, hfree.mpr hclean⟩

end NewGroup

end ArmciMpi
