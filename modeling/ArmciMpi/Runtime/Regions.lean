import ArmciMpi.Lib.Transition
import ArmciMpi.Runtime.RegionList
import Mathlib.Data.List.FinRange

/-!
# Collective creation and destruction of regions

All processes of a run, each with its own region list. A call of `gmr_create`
or `gmr_destroy` is made by all members of a group; a run is a sequence of such
calls, on groups that may overlap. A call in which a process fails an assertion,
or in which the processes free different windows, has no outcome.

`Inv` relates the lists to the regions that are live: the list of a process
holds exactly the live regions of its groups, in the order of their creation,
and live slices of one process are apart. Every call keeps it. The calls are
not assumed to be correct ones; what is assumed is what MPI and `malloc`
promise about the addresses they return.
-/

namespace ArmciMpi

open Lib

structure Cluster where
  comm : Comm
  undefined : Int
  cfg : Nat → GlobalState
  world_ranks : comm.ranks = List.range comm.ranks.length
  undefined_not_rank : ¬ (0 ≤ undefined ∧ undefined < comm.ranks.length)

def Cluster.size (C : Cluster) : Nat := C.comm.ranks.length

def Cluster.world (C : Cluster) (p : Fin C.size) : World :=
  ⟨C.comm, p, C.undefined, C.world_ranks, p.isLt, C.undefined_not_rank⟩

def Cluster.members (C : Cluster) (c : Comm) : List (Fin C.size) :=
  (List.finRange C.size).filter fun p => p.val ∈ c.ranks

@[simp] theorem Cluster.mem_members {C : Cluster} {c : Comm} {p : Fin C.size} :
    p ∈ C.members c ↔ p.val ∈ c.ranks := by
  simp [members]

instance (C : Cluster) (c : Comm) (p : Fin C.size) : Decidable (p ∈ C.members c) :=
  decidable_of_iff (p.val ∈ c.ranks) Cluster.mem_members.symm

/-- What the members of an ARMCI group share: its communicator and the duplicate
made for noncollective groups. -/
structure AllocGroup where
  comm : Comm
  dup : Comm
  deriving DecidableEq

/-- The `ARMCI_Group` variable of a member. -/
def Cluster.group (C : Cluster) (g : AllocGroup) (p : Fin C.size) : Group :=
  groupInitFromComm (C.world p) (C.cfg p) g.dup ⟨some g.comm, none, -1, 0, none, none⟩

structure Region where
  win : Win
  dup : Comm
  slices : List Slice
  unified : Bool
  deriving DecidableEq

def Region.slice (R : Region) (p : Nat) : Slice := (R.slices[p]?).getD ⟨0, 0⟩

/-- The `gmr_t` of a region on one of its members. -/
def Cluster.mreg (C : Cluster) (R : Region) (p : Fin C.size) : Gmr :=
  ⟨some R.win, C.group ⟨R.win.comm, R.dup⟩ p, R.slices, C.size, R.unified⟩

/-- A region as `gmr_create` makes it. -/
structure Region.Ok (C : Cluster) (R : Region) : Prop where
  ranks : ∀ r ∈ R.win.comm.ranks, r < C.size
  outside : ∀ p, p ∉ R.win.comm.ranks → R.slice p = ⟨0, 0⟩
  base : ∀ p g, R.win.comm.rankOf p = some g → R.win.base[g]? = some (R.slice p).base
  size : ∀ p, 0 ≤ (R.slice p).size
  nonnull : ∀ p, 0 < (R.slice p).size → 0 < (R.slice p).base
  null : ∀ p, (R.slice p).size = 0 → (R.slice p).base = 0
  nonempty : ∃ p ∈ R.win.comm.ranks, 0 < (R.slice p).size

namespace Regions

/-- `live` and `wins` are not in the source: the live regions in the order of
their creation, and the number of windows MPI has created. -/
structure State (C : Cluster) where
  lists : Fin C.size → GmrList
  live : List Region
  wins : Nat

variable {C : Cluster}

def collect {β : Type} : List (Fin C.size) → (Fin C.size → Except String β) →
    Except String (Fin C.size → Option β)
  | [], _ => .ok fun _ => none
  | p :: ps, f => do
    let b ← f p
    let r ← collect ps f
    .ok (Function.update r p (some b))

-- ------------------------------
-- Creation
-- ------------------------------

/-- A call of `gmr_create` by all members of a group, by group rank the sizes
they ask for and the addresses MPI gives them, and by world rank the addresses
`malloc` gives for their `gmr_t`. -/
structure Alloc where
  group : AllocGroup
  sizes : List Nat
  bases : List Int
  addrs : Nat → Nat
  unified : Bool

/-- `alloc_slices` after the exchange; an empty slice has a null base, whichever
way the window is created. -/
def Alloc.slices (A : Alloc) : List Slice :=
  List.zipWith (fun (size : Nat) base => ⟨if size = 0 then 0 else base, size⟩) A.sizes A.bases

def Alloc.maxLocalSize (A : Alloc) : Nat := A.sizes.foldl max 0

/-- `mreg->slices`: the slices of the group, by world rank. -/
def worldSlices (C : Cluster) (c : Comm) (allocSlices : List Slice) : List Slice :=
  (c.ranks.zip allocSlices).foldl (fun slices x => slices.set x.1 x.2)
    (List.replicate C.size ⟨0, 0⟩)

def Alloc.region (C : Cluster) (A : Alloc) (id : Nat) : Region :=
  ⟨⟨id, A.group.comm, A.slices.map Slice.base⟩, A.group.dup,
    worldSlices C A.group.comm A.slices, A.unified⟩

def gmrCreate (s : State C) (A : Alloc) : Except String (State C) := do
  if A.maxLocalSize = 0 then .ok s
  else if ∃ x ∈ A.slices, 0 < x.size ∧ x.base = 0 then
    .error "alloc_slices[alloc_me].base != NULL"
  else
    let R := A.region C s.wins
    let lists ← collect (C.members A.group.comm) fun p =>
      (s.lists p).append (A.addrs p) (C.mreg R p)
    .ok { lists := fun p => (lists p).getD (s.lists p)
          live := s.live ++ [R]
          wins := s.wins + 1 }

-- ------------------------------
-- Destruction
-- ------------------------------

/-- `search_proc_in`, by which the members choose who provides the key. -/
def searchProcIn (mreg : Option Nat) (me : Nat) : Int := if mreg.isSome then me else -1

/-- `search_base` on a process before the broadcast. -/
def searchBaseIn (s : State C) (mregs : Fin C.size → Option Nat) (p : Fin C.size) :
    Except String Int :=
  match mregs p with
  | some a => do
    let c ← (s.lists p).get a
    .ok (c.val.slice p).base
  | none => .ok 0

/-- `MPI_Allreduce` with `MPI_MAX` of `search_proc_in`. -/
def searchProcOut (g : AllocGroup) (mregs : Fin C.size → Option Nat) : Int :=
  (((C.members g.comm).map fun p => searchProcIn (mregs p) p).max?).getD (-1)

/-- `MPI_Bcast` of `search_base`, as one member of the group takes part in it. -/
def searchBase (s : State C) (g : AllocGroup) (mregs : Fin C.size → Option Nat)
    (p : Fin C.size) : Except String Int := do
  let root ← translateAbsoluteToGroup (C.world p) (C.group g p) (searchProcOut g mregs).toNat
  match (C.members g.comm).find? fun q => 0 ≤ root ∧ g.comm.rankOf q.val = some root.toNat with
  | some q => searchBaseIn s mregs q
  | none => .error "MPI_ERR_ROOT"

def selects (s : State C) (g : AllocGroup) (mregs : Fin C.size → Option Nat)
    (p : Fin C.size) : Except String (Option Nat) := do
  let base ← searchBase s g mregs p
  match mregs p with
  | some a => .ok (some a)
  | none => (s.lists p).lookup base (searchProcOut g mregs).toNat

/-- What a member does after the exchange: its list without the region, and the
window it frees. -/
def destroyOn (s : State C) (g : AllocGroup) (mregs : Fin C.size → Option Nat)
    (p : Fin C.size) : Except String (GmrList × Win) := do
  match ← selects s g mregs p with
  | none => .error "Could not locate the desired allocation"
  | some a =>
    let mreg ← (s.lists p).get a
    let l ← (s.lists p).unlink a
    let win ← mreg.val.getWindow
    .ok (l, win)

/-- `MPI_Win_free` is collective: all members free one window, which is theirs. -/
def freed (g : AllocGroup) (r : Fin C.size → Option (GmrList × Win)) : Except String Win :=
  match (C.members g.comm).filterMap fun p => (r p).map Prod.snd with
  | [] => .error "MPI_ERR_WIN"
  | win :: wins =>
    if (∀ win' ∈ wins, win' = win) ∧ C.members win.comm = C.members g.comm then .ok win
    else .error "MPI_ERR_WIN"

/-- `gmr_destroy`; `mregs` is the argument of each member. -/
def gmrDestroy (s : State C) (g : AllocGroup) (mregs : Fin C.size → Option Nat) :
    Except String (State C) := do
  -- everyone passed NULL
  if searchProcOut g mregs < 0 then .ok s
  else
    let r ← collect (C.members g.comm) (destroyOn s g mregs)
    let win ← freed g r
    .ok { lists := fun p => ((r p).map Prod.fst).getD (s.lists p)
          live := s.live.filter fun R => R.win ≠ win
          wins := s.wins }

/-- The region a member of `ARMCI_Free_group` hands to `gmr_destroy`. -/
def freeMreg (s : State C) (ptrs : Fin C.size → Int) (p : Fin C.size) :
    Except String (Option Nat) :=
  if ptrs p ≠ 0 then do
    match ← (s.lists p).lookup (ptrs p) p with
    | some a => .ok (some a)
    | none => .error "Invalid shared pointer"
  else .ok none

/-- `ARMCI_Free_group`; `ptrs` is the argument of each member. -/
def armciFreeGroup (s : State C) (g : AllocGroup) (ptrs : Fin C.size → Int) :
    Except String (State C) := do
  let mregs ← collect (C.members g.comm) (freeMreg s ptrs)
  gmrDestroy s g fun p => (mregs p).join

-- ------------------------------
-- Runs
-- ------------------------------

def Apart (a b : Slice) : Prop :=
  a.size ≤ 0 ∨ b.size ≤ 0 ∨ a.base + a.size ≤ b.base ∨ b.base + b.size ≤ a.base

instance (a b : Slice) : Decidable (Apart a b) :=
  inferInstanceAs (Decidable (a.size ≤ 0 ∨ b.size ≤ 0 ∨ _ ∨ _))

/-- The arguments are those of a collective call, and MPI and `malloc` return
memory that is not in use. -/
def Alloc.Legal (s : State C) (A : Alloc) : Prop :=
  (∀ r ∈ A.group.comm.ranks, r < C.size) ∧
  A.sizes.length = A.group.comm.ranks.length ∧
  A.bases.length = A.group.comm.ranks.length ∧
  (∀ base ∈ A.bases, 0 ≤ base) ∧
  (∀ p ∈ C.members A.group.comm, ((s.lists p).cells (A.addrs p)).isNone) ∧
  ∀ p ∈ C.members A.group.comm, ∀ R ∈ s.live,
    Apart (R.slice p) ((A.region C s.wins).slice p)

instance (s : State C) (A : Alloc) : Decidable (A.Legal s) := by
  unfold Alloc.Legal
  infer_instance

inductive Call (C : Cluster)
  | create (A : Alloc)
  | destroy (g : AllocGroup) (mregs : Fin C.size → Option Nat)
  | free (g : AllocGroup) (ptrs : Fin C.size → Int)

def next (s : State C) : Call C → Option (State C)
  | .create A => if A.Legal s then (gmrCreate s A).toOption else none
  | .destroy g mregs => (gmrDestroy s g mregs).toOption
  | .free g ptrs => (armciFreeGroup s g ptrs).toOption

def start (C : Cluster) : State C := ⟨fun _ => .empty, [], 0⟩

def system (C : Cluster) : System (State C) (Call C) := ⟨(· = start C), next⟩

-- ------------------------------
-- What a call does
-- ------------------------------

theorem eq_ok_of_toOption {β : Type} {x : Except String β} {b : β} (h : x.toOption = some b) :
    x = .ok b := by
  cases x with
  | error e => cases h
  | ok b' => cases h; rfl

theorem collect_eq_ok {β : Type} {ps : List (Fin C.size)} {f : Fin C.size → Except String β}
    {r : Fin C.size → Option β} (h : collect ps f = .ok r) (p : Fin C.size) :
    (p ∈ ps → ∃ b, f p = .ok b ∧ r p = some b) ∧ (p ∉ ps → r p = none) := by
  induction ps generalizing r with
  | nil => cases h; simp
  | cons q ps ih =>
    rw [collect] at h
    cases hb : f q with
    | error e => rw [hb] at h; cases h
    | ok b =>
      cases hr : collect ps f with
      | error e => rw [hb, hr] at h; cases h
      | ok r' =>
        rw [hb, hr] at h
        cases h
        obtain ⟨hin, hout⟩ := ih hr
        by_cases hq : p = q
        · subst hq
          simp [hb]
        · simpa [hq] using ⟨hin, hout⟩

theorem collect_ok {β : Type} {ps : List (Fin C.size)} {f : Fin C.size → Except String β}
    (h : ∀ p ∈ ps, ∃ b, f p = .ok b) : ∃ r, collect ps f = .ok r := by
  induction ps with
  | nil => exact ⟨_, rfl⟩
  | cons q ps ih =>
    obtain ⟨b, hb⟩ := h q List.mem_cons_self
    obtain ⟨r, hr⟩ := ih fun p hp => h p (List.mem_cons_of_mem q hp)
    exact ⟨Function.update r q (some b), by rw [collect, hb, hr]; rfl⟩

theorem gmrCreate_cases {s t : State C} {A : Alloc} (h : gmrCreate s A = .ok t) :
    (A.maxLocalSize = 0 ∧ t = s) ∨
    (A.maxLocalSize ≠ 0 ∧ (∀ x ∈ A.slices, 0 < x.size → x.base ≠ 0) ∧
      t.live = s.live ++ [A.region C s.wins] ∧ t.wins = s.wins + 1 ∧
      (∀ p ∈ C.members A.group.comm,
        (s.lists p).append (A.addrs p) (C.mreg (A.region C s.wins) p) = .ok (t.lists p)) ∧
      ∀ p ∉ C.members A.group.comm, t.lists p = s.lists p) := by
  unfold gmrCreate at h
  split at h
  · cases h
    exact .inl ⟨‹_›, rfl⟩
  · rename_i hmax
    split at h
    · cases h
    · rename_i hnull
      cases hr : collect (C.members A.group.comm) fun p =>
        (s.lists p).append (A.addrs p) (C.mreg (A.region C s.wins) p) with
      | error e => simp only [hr, bind, Except.bind] at h; cases h
      | ok r =>
        simp only [hr, bind, Except.bind] at h
        cases h
        refine .inr ⟨hmax, fun x hx hsize hbase => hnull ⟨x, hx, hsize, hbase⟩, rfl, rfl,
          fun p hp => ?_, fun p hp => ?_⟩
        · obtain ⟨l, hl, hrp⟩ := (collect_eq_ok hr p).1 hp
          simp [hl, hrp]
        · simp [(collect_eq_ok hr p).2 hp]

theorem destroyOn_eq_ok {s : State C} {g : AllocGroup} {mregs : Fin C.size → Option Nat}
    {p : Fin C.size} {l : GmrList} {win : Win} :
    destroyOn s g mregs p = .ok (l, win) ↔
      ∃ a c, selects s g mregs p = .ok (some a) ∧ (s.lists p).cells a = some c ∧
        (s.lists p).unlink a = .ok l ∧ c.val.window = some win := by
  unfold destroyOn
  cases hsel : selects s g mregs p with
  | error e => simp [bind, Except.bind]
  | ok sel =>
    cases sel with
    | none => simp [bind, Except.bind]
    | some a =>
      cases hc : (s.lists p).cells a with
      | none => simp [bind, Except.bind, GmrList.get, hc]
      | some c =>
        cases hu : (s.lists p).unlink a with
        | error e => simp [bind, Except.bind, GmrList.get, hc, hu]
        | ok l' =>
          cases hw : c.val.window with
          | none => simp [bind, Except.bind, GmrList.get, hc, hu, Gmr.getWindow, hw]
          | some win' => simp [bind, Except.bind, GmrList.get, hc, hu, Gmr.getWindow, hw]

theorem gmrDestroy_cases {s t : State C} {g : AllocGroup} {mregs : Fin C.size → Option Nat}
    (h : gmrDestroy s g mregs = .ok t) :
    t = s ∨
    ∃ win, C.members win.comm = C.members g.comm ∧ C.members g.comm ≠ [] ∧
      t.live = s.live.filter (fun R => R.win ≠ win) ∧ t.wins = s.wins ∧
      (∀ p ∈ C.members g.comm, destroyOn s g mregs p = .ok (t.lists p, win)) ∧
      ∀ p ∉ C.members g.comm, t.lists p = s.lists p := by
  unfold gmrDestroy at h
  split at h
  · cases h
    exact .inl rfl
  · cases hr : collect (C.members g.comm) (destroyOn s g mregs) with
    | error e => simp only [hr, bind, Except.bind] at h; cases h
    | ok r =>
      cases hf : freed g r with
      | error e => simp only [hr, hf, bind, Except.bind] at h; cases h
      | ok win =>
        simp only [hr, hf, bind, Except.bind] at h
        cases h
        unfold freed at hf
        split at hf
        · cases hf
        · rename_i win' wins hwins
          split at hf
          · rename_i hsame
            cases hf
            refine .inr ⟨win, hsame.2, ?_, rfl, rfl, fun p hp => ?_, fun p hp => ?_⟩
            · intro hnil
              simp [hnil] at hwins
            · obtain ⟨b, hb, hrp⟩ := (collect_eq_ok hr p).1 hp
              have hmem : b.2 ∈ win :: wins := by
                rw [← hwins]
                exact List.mem_filterMap.mpr ⟨p, hp, by simp [hrp]⟩
              have hwin : b.2 = win := by
                rcases List.mem_cons.mp hmem with h | h
                · exact h
                · exact hsame.1 _ h
              simp [hb, hrp, ← hwin]
            · simp [(collect_eq_ok hr p).2 hp]
          · cases hf

theorem armciFreeGroup_eq_ok {s t : State C} {g : AllocGroup} {ptrs : Fin C.size → Int}
    (h : armciFreeGroup s g ptrs = .ok t) : ∃ mregs, gmrDestroy s g mregs = .ok t := by
  unfold armciFreeGroup at h
  cases hm : collect (C.members g.comm) (freeMreg s ptrs) with
  | error e => rw [hm] at h; cases h
  | ok mregs => rw [hm] at h; exact ⟨_, h⟩

-- ------------------------------
-- The slices of a new region
-- ------------------------------

theorem foldl_set_of_not_mem {β : Type} {l : List (Nat × β)} {init : List β} {r : Nat}
    (h : r ∉ l.map Prod.fst) : (l.foldl (fun xs x => xs.set x.1 x.2) init)[r]? = init[r]? := by
  induction l generalizing init with
  | nil => rfl
  | cons x l ih =>
    simp only [List.map_cons, List.mem_cons, not_or] at h
    rw [List.foldl_cons, ih h.2, List.getElem?_set_ne (Ne.symm h.1)]

theorem foldl_set_of_mem {β : Type} {l : List (Nat × β)} {init : List β} {r : Nat} {x : β}
    (hnd : (l.map Prod.fst).Nodup) (h : (r, x) ∈ l) (hr : r < init.length) :
    (l.foldl (fun xs x => xs.set x.1 x.2) init)[r]? = some x := by
  induction l generalizing init with
  | nil => cases h
  | cons y l ih =>
    simp only [List.map_cons, List.nodup_cons] at hnd
    rw [List.foldl_cons]
    rcases List.mem_cons.mp h with rfl | h
    · rw [foldl_set_of_not_mem hnd.1, List.getElem?_set_self hr]
    · exact ih hnd.2 h (by simpa using hr)

theorem foldl_max_pos {l : List Nat} (h : l.foldl max 0 ≠ 0) : ∃ x ∈ l, 0 < x := by
  by_contra hall
  push Not at hall
  apply h
  induction l with
  | nil => rfl
  | cons x l ih =>
    have hx : x = 0 := by simpa using hall x List.mem_cons_self
    rw [List.foldl_cons, hx, Nat.max_self]
    by_contra hne
    exact hne (ih hne fun y hy => hall y (List.mem_cons_of_mem x hy))

section
variable {s : State C} {A : Alloc}

theorem Alloc.region_slice (hA : A.Legal s) (id : Nat) (hp : A.group.comm.rankOf p = some g) :
    ∃ size base, A.sizes[g]? = some size ∧ A.bases[g]? = some base ∧
      A.slices[g]? = some ⟨if size = 0 then 0 else base, size⟩ ∧
      (A.region C id).slice p = ⟨if size = 0 then 0 else base, size⟩ := by
  obtain ⟨hranks, hsizes, hbases, -⟩ := hA
  have hg := Comm.rankOf_lt hp
  have hget := Comm.rankOf_eq_some.mp hp
  obtain ⟨size, hsize⟩ : ∃ size, A.sizes[g]? = some size := ⟨_, List.getElem?_eq_getElem (by omega)⟩
  obtain ⟨base, hbase⟩ : ∃ base, A.bases[g]? = some base := ⟨_, List.getElem?_eq_getElem (by omega)⟩
  have hslice : A.slices[g]? = some ⟨if size = 0 then 0 else base, size⟩ := by
    simp [Alloc.slices, List.getElem?_zipWith, hsize, hbase]
  have hlen : A.slices.length = A.group.comm.ranks.length := by
    simp [Alloc.slices, hsizes, hbases]
  refine ⟨size, base, hsize, hbase, hslice, ?_⟩
  have hmem : (p, (⟨if size = 0 then 0 else base, size⟩ : Slice)) ∈
      A.group.comm.ranks.zip A.slices := by
    refine List.mem_of_getElem? (i := g) ?_
    rw [List.getElem?_zip_eq_some]
    exact ⟨hget, hslice⟩
  have hnd : ((A.group.comm.ranks.zip A.slices).map Prod.fst).Nodup := by
    rw [List.map_fst_zip (by omega)]
    exact A.group.comm.nodup
  have hpn : p < (List.replicate C.size (⟨0, 0⟩ : Slice)).length := by
    simpa using hranks p (List.mem_of_getElem? hget)
  simp [Region.slice, Alloc.region, worldSlices, foldl_set_of_mem hnd hmem hpn]

theorem Alloc.region_slice_outside (A : Alloc) (id : Nat) (hp : p ∉ A.group.comm.ranks) :
    (A.region C id).slice p = ⟨0, 0⟩ := by
  have hnot : p ∉ (A.group.comm.ranks.zip A.slices).map Prod.fst := by
    intro hmem
    obtain ⟨x, hx, rfl⟩ := List.mem_map.mp hmem
    exact hp (List.of_mem_zip hx).1
  simp only [Region.slice, Alloc.region, worldSlices, foldl_set_of_not_mem hnot]
  by_cases hpn : p < C.size <;> simp [hpn]

theorem Alloc.region_ok (hA : A.Legal s) (id : Nat) (hmax : A.maxLocalSize ≠ 0)
    (hnull : ∀ x ∈ A.slices, 0 < x.size → x.base ≠ 0) : (A.region C id).Ok C := by
  have hout : ∀ p, p ∉ A.group.comm.ranks → (A.region C id).slice p = ⟨0, 0⟩ := fun _ hp =>
    A.region_slice_outside id hp
  have hin : ∀ p, (A.region C id).slice p = ⟨0, 0⟩ ∨ ∃ (size : Nat) (base : Int), 0 ≤ base ∧
      (0 < size → base ≠ 0) ∧ (A.region C id).slice p = ⟨if size = 0 then 0 else base, size⟩ := by
    intro p
    by_cases hp : p ∈ A.group.comm.ranks
    · obtain ⟨g, hg⟩ := Option.isSome_iff_exists.mp (Comm.rankOf_isSome.mpr hp)
      obtain ⟨size, base, -, hbase, hslice, heq⟩ := A.region_slice hA id hg
      refine .inr ⟨size, base, hA.2.2.2.1 base (List.mem_of_getElem? hbase), fun hsize hzero => ?_,
        heq⟩
      exact hnull _ (List.mem_of_getElem? hslice) (by simpa using hsize)
        (by simp [hzero])
    · exact .inl (hout p hp)
  refine ⟨hA.1, hout, fun p g hp => ?_, fun p => ?_, fun p h => ?_, fun p h => ?_, ?_⟩
  · obtain ⟨size, base, -, -, hslice, heq⟩ := A.region_slice hA id hp
    rw [heq]
    simp [Alloc.region, hslice]
  · rcases hin p with h | ⟨size, base, -, -, h⟩ <;> simp [h]
  · rcases hin p with h' | ⟨size, base, hbase, hne, h'⟩
    · simp [h'] at h
    · rw [h'] at h ⊢
      have hsize : size ≠ 0 := by rintro rfl; simp at h
      simp only [hsize, if_false]
      have := hne (by omega)
      omega
  · rcases hin p with h' | ⟨size, base, -, -, h'⟩
    · simp [h']
    · rw [h'] at h ⊢
      simp only [Int.natCast_eq_zero] at h
      simp [h]
  · obtain ⟨size, hsize, hpos⟩ := foldl_max_pos hmax
    obtain ⟨g, hg⟩ := List.mem_iff_getElem?.mp hsize
    have hlt : g < A.group.comm.ranks.length := by
      rw [← hA.2.1]
      exact (List.getElem?_eq_some_iff.mp hg).1
    have hp : A.group.comm.rankOf (A.group.comm.ranks[g]) = some g :=
      Comm.rankOf_eq_some.mpr (List.getElem?_eq_getElem hlt)
    obtain ⟨size', base, hsize', -, -, heq⟩ := A.region_slice hA id hp
    refine ⟨_, List.getElem_mem hlt, ?_⟩
    rw [heq]
    rw [hg] at hsize'
    cases hsize'
    simpa using hpos

end

-- ------------------------------
-- The invariant
-- ------------------------------

def State.on (s : State C) (p : Fin C.size) : List Region :=
  s.live.filter fun R => p.val ∈ R.win.comm.ranks

/-- The list of every process holds its live regions in the order of their
creation; live regions have different windows, and their slices on one
process are apart. -/
structure Inv (s : State C) : Prop where
  ok : ∀ R ∈ s.live, R.Ok C
  ids : (s.live.map fun R => R.win.id).Nodup
  fresh : ∀ R ∈ s.live, R.win.id < s.wins
  apart : s.live.Pairwise fun R R' => ∀ p, Apart (R.slice p) (R'.slice p)
  holds : ∀ p, ∃ xs, (s.lists p).Holds xs ∧ xs.map Prod.snd = (s.on p).map (C.mreg · p)

theorem Inv.start : Inv (start C) :=
  ⟨by simp [Regions.start], by simp [Regions.start], by simp [Regions.start],
    by simp [Regions.start], fun _ => ⟨[], GmrList.holds_empty, rfl⟩⟩

section
variable {s t : State C}

theorem Inv.cell (h : Inv s) (hc : (s.lists p).cells a = some c) :
    ∃ l r Rl R Rr, (s.lists p).Holds (l ++ (a, C.mreg R p) :: r) ∧ s.on p = Rl ++ R :: Rr ∧
      l.map Prod.snd = Rl.map (C.mreg · p) ∧ r.map Prod.snd = Rr.map (C.mreg · p) ∧
      c.val = C.mreg R p := by
  obtain ⟨xs, hxs, hval⟩ := h.holds p
  obtain ⟨x, hx, rfl⟩ := List.mem_map.mp (hxs.only a (by simp [hc]))
  obtain ⟨l, r, rfl⟩ := List.append_of_mem hx
  rw [List.map_append, List.map_cons] at hval
  obtain ⟨Rl, Rr', hon, hl, hr⟩ := List.map_eq_append_iff.mp hval.symm
  obtain ⟨R, Rr, rfl, hR, hr⟩ := List.map_eq_cons_iff.mp hr
  have hlink := hxs.linked.links l x.1 x.2 r rfl
  rw [hc] at hlink
  cases hlink
  exact ⟨l, r, Rl, R, Rr, by rw [hR]; exact hxs, hon, hl.symm, hr.symm, hR.symm⟩

theorem Inv.create (h : Inv s) {A : Alloc} (hA : A.Legal s) (hmax : A.maxLocalSize ≠ 0)
    (hnull : ∀ x ∈ A.slices, 0 < x.size → x.base ≠ 0)
    (hlive : t.live = s.live ++ [A.region C s.wins]) (hwins : t.wins = s.wins + 1)
    (hin : ∀ p ∈ C.members A.group.comm,
      (s.lists p).append (A.addrs p) (C.mreg (A.region C s.wins) p) = .ok (t.lists p))
    (hout : ∀ p ∉ C.members A.group.comm, t.lists p = s.lists p) : Inv t := by
  have hR := A.region_ok hA s.wins hmax hnull
  refine ⟨?_, ?_, ?_, ?_, fun p => ?_⟩
  · intro R hmem
    rw [hlive] at hmem
    rcases List.mem_append.mp hmem with hmem | hmem
    · exact h.ok R hmem
    · rw [List.mem_singleton.mp hmem]
      exact hR
  · rw [hlive, List.map_append, List.nodup_append]
    refine ⟨h.ids, by simp, ?_⟩
    rintro i hi j hj rfl
    obtain ⟨R, hR, rfl⟩ := List.mem_map.mp hi
    have hlt := h.fresh R hR
    have : R.win.id = s.wins := by simpa [Alloc.region] using hj
    omega
  · intro R hmem
    rw [hlive] at hmem
    rw [hwins]
    rcases List.mem_append.mp hmem with hmem | hmem
    · exact Nat.lt_succ_of_lt (h.fresh R hmem)
    · rw [List.mem_singleton.mp hmem]
      exact Nat.lt_succ_self _
  · rw [hlive, List.pairwise_append]
    refine ⟨h.apart, List.pairwise_singleton _ _, fun R hmem R' hmem' p => ?_⟩
    rw [List.mem_singleton.mp hmem']
    by_cases hp : p ∈ A.group.comm.ranks
    · exact hA.2.2.2.2.2 ⟨p, hA.1 p hp⟩ (Cluster.mem_members.mpr hp) R hmem
    · rw [hR.outside p hp]
      exact .inr (.inl (Int.le_refl 0))
  · obtain ⟨xs, hxs, hval⟩ := h.holds p
    by_cases hp : p ∈ C.members A.group.comm
    · have hfresh : A.addrs p ∉ xs.map Prod.fst := by
        intro hmem
        obtain ⟨x, hx, heq⟩ := List.mem_map.mp hmem
        obtain ⟨_, _, hc⟩ := hxs.linked.get (a := x.1) (v := x.2) hx
        have := hA.2.2.2.2.1 p hp
        simp [← heq, hc] at this
      obtain ⟨l, hl, hholds⟩ := GmrList.append_ok hxs hfresh (C.mreg (A.region C s.wins) p)
      rw [hin p hp] at hl
      cases hl
      refine ⟨_, hholds, ?_⟩
      have hp' : p.val ∈ (A.region C s.wins).win.comm.ranks := Cluster.mem_members.mp hp
      simp [State.on, hlive, hval, List.filter_append, hp']
    · refine ⟨xs, by rw [hout p hp]; exact hxs, ?_⟩
      have hp' : p.val ∉ (A.region C s.wins).win.comm.ranks := fun hmem =>
        hp (Cluster.mem_members.mpr hmem)
      simp [State.on, hlive, hval, List.filter_append, hp']

theorem Inv.destroyed (h : Inv s) {g : AllocGroup} {mregs : Fin C.size → Option Nat} {l : GmrList}
    (hd : destroyOn s g mregs p = .ok (l, win)) :
    ∃ R ∈ s.on p, R.win = win ∧ ∃ xs, (s.lists p).Holds xs ∧
      xs.map Prod.snd = (s.on p).map (C.mreg · p) ∧
      l.Holds (xs.filter fun x => x.2.window ≠ some win) := by
  obtain ⟨a, c, -, hc, hu, hw⟩ := destroyOn_eq_ok.mp hd
  obtain ⟨xl, xr, Rl, R, Rr, hxs, hon, hl, hr, hval⟩ := h.cell hc
  have hwin : R.win = win := by
    rw [hval] at hw
    exact Option.some.inj hw
  obtain ⟨l', hu', hholds⟩ := GmrList.unlink_ok hxs
  rw [hu] at hu'
  cases hu'
  refine ⟨R, by simp [hon], hwin, _, hxs, by simp [hon, hl, hr], ?_⟩
  -- the other regions have other windows
  have hnd : ((Rl ++ R :: Rr).map fun R => R.win.id).Nodup := by
    rw [← hon]
    exact h.ids.sublist (List.filter_sublist.map _)
  simp only [List.map_append, List.map_cons, List.nodup_append, List.nodup_cons,
    List.mem_cons, forall_eq_or_imp, List.mem_map] at hnd
  have hother : ∀ (xs : List (Nat × Gmr)) (Rs : List Region),
      xs.map Prod.snd = Rs.map (C.mreg · p) → (∀ R' ∈ Rs, R'.win.id ≠ R.win.id) →
      xs.filter (fun x => x.2.window ≠ some win) = xs := by
    intro xs Rs hmap hne
    refine List.filter_eq_self.mpr fun x hx => ?_
    obtain ⟨R', hR', heq⟩ := List.mem_map.mp (hmap ▸ List.mem_map_of_mem hx)
    simp only [← heq, Cluster.mreg, ne_eq, Option.some.injEq, decide_eq_true_eq]
    exact fun he => hne R' hR' (by rw [he, hwin])
  rw [List.filter_append, List.filter_cons_of_neg (by simp [Cluster.mreg, hwin]),
    hother xl Rl hl fun R' hR' => (hnd.2.2 R'.win.id ⟨R', hR', rfl⟩).1,
    hother xr Rr hr fun R' hR' heq => hnd.2.1.1 ⟨R', hR', heq⟩]
  exact hholds

theorem map_filter_window {xs : List (Nat × Gmr)} {Rs : List Region}
    (h : xs.map Prod.snd = Rs.map (C.mreg · p)) (win : Win) :
    (xs.filter fun x => x.2.window ≠ some win).map Prod.snd =
      (Rs.filter fun R => R.win ≠ win).map (C.mreg · p) := by
  have hx : (xs.filter fun x => x.2.window ≠ some win).map Prod.snd =
      (xs.map Prod.snd).filter fun m => m.window ≠ some win := by
    rw [List.filter_map]
    rfl
  rw [hx, h, List.filter_map]
  simp [Function.comp_def, Cluster.mreg]

theorem Inv.destroy (h : Inv s) {g : AllocGroup} {mregs : Fin C.size → Option Nat} {win : Win}
    (hsame : C.members win.comm = C.members g.comm)
    (hlive : t.live = s.live.filter fun R => R.win ≠ win) (hwins : t.wins = s.wins)
    (hin : ∀ p ∈ C.members g.comm, destroyOn s g mregs p = .ok (t.lists p, win))
    (hout : ∀ p ∉ C.members g.comm, t.lists p = s.lists p) : Inv t := by
  have hsub : t.live.Sublist s.live := by rw [hlive]; exact List.filter_sublist
  have hon : ∀ p, t.on p = (s.on p).filter fun R => R.win ≠ win := by
    intro p
    simp only [State.on, hlive]
    exact List.filter_comm ..
  refine ⟨fun R hR => h.ok R (hsub.subset hR), h.ids.sublist (hsub.map _),
    fun R hR => hwins ▸ h.fresh R (hsub.subset hR), h.apart.sublist hsub, fun p => ?_⟩
  by_cases hp : p ∈ C.members g.comm
  · obtain ⟨R, -, -, xs, -, hval, hl⟩ := h.destroyed (hin p hp)
    exact ⟨_, hl, by rw [hon]; exact map_filter_window hval win⟩
  · -- the process is no member of the window, so it has no region with it
    obtain ⟨xs, hxs, hval⟩ := h.holds p
    refine ⟨xs, by rw [hout p hp]; exact hxs, ?_⟩
    rw [hval, hon, List.filter_eq_self.mpr]
    intro R' hR'
    simp only [ne_eq, decide_eq_true_eq]
    rintro rfl
    apply hp
    rw [← hsame, Cluster.mem_members]
    simpa [State.on] using (List.mem_filter.mp hR').2

theorem Inv.gmrDestroy (h : Inv s) {g : AllocGroup} {mregs : Fin C.size → Option Nat}
    (hd : Regions.gmrDestroy s g mregs = .ok t) : Inv t := by
  rcases gmrDestroy_cases hd with rfl | ⟨win, hsame, -, hlive, hwins, hin, hout⟩
  · exact h
  · exact h.destroy hsame hlive hwins hin hout

theorem Inv.next (h : Inv s) (hn : Regions.next s call = some t) : Inv t := by
  cases call with
  | create A =>
    simp only [Regions.next, Option.ite_none_right_eq_some] at hn
    obtain ⟨hA, hn⟩ := hn
    rcases gmrCreate_cases (eq_ok_of_toOption hn) with ⟨-, rfl⟩ |
      ⟨hmax, hnull, hlive, hwins, hin, hout⟩
    · exact h
    · exact h.create hA hmax hnull hlive hwins hin hout
  | destroy g mregs => exact h.gmrDestroy (eq_ok_of_toOption hn)
  | free g ptrs =>
    obtain ⟨mregs, hd⟩ := armciFreeGroup_eq_ok (eq_ok_of_toOption hn)
    exact h.gmrDestroy hd

theorem inv_of_reachable (h : (system C).Reachable s) : Inv s :=
  h.invariant (by rintro s rfl; exact .start) fun _ _ _ _ hi hn => hi.next hn

end

end Regions

end ArmciMpi
