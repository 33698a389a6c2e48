import ArmciMpi.Mpi.Types
import Mathlib.Data.List.Perm.Basic

/-!
# Runtime settings, groups and rank translation

`GlobalState` holds the settings the transfer code reads. A group keeps its
communicator, the caller's rank in it, its size and, with caching on, the two
translation tables. `translateAbsoluteToGroup` has three paths: the world
group, the cached table and a call to MPI; `translate_member` and
`translate_nonmember` say what all three give on a group that
`groupInitFromComm` has filled in. A rank outside the group is never a valid
group rank, but only the last path turns `MPI_UNDEFINED` into -1, so that the
cached table agrees with MPI on members only (`translations_agree_iff`).
`absoluteId` is the inverse on every path.
-/

namespace ArmciMpi

inductive StridedMethod
  | iov
  | direct
  deriving DecidableEq

inductive IovMethod
  | auto
  | consrv
  | batched
  | direct
  deriving DecidableEq

inductive ShrBufMethod
  | copy
  | noguard
  deriving DecidableEq

/-- The fields of `ARMCII_GLOBAL_STATE` that the modelled code reads, and
whether the library was built with `USE_RMA_REQUESTS`. -/
structure GlobalState where
  iovChecks : Bool
  iovBatchedLimit : Int
  iovDtypeChunk : Int
  noncollectiveGroups : Bool
  cacheRankTranslation : Bool
  explicitNbProgress : Bool
  rmaAtomicity : Bool
  endToEndFlush : Bool
  stridedMethod : StridedMethod
  iovMethod : IovMethod
  shrBufMethod : ShrBufMethod
  useRmaRequests : Bool
  deriving DecidableEq

/-- The world group as one process sees it, with the constant `MPI_UNDEFINED`. -/
structure World where
  comm : Comm
  rank : Nat
  undefined : Int
  world_ranks : comm.ranks = List.range comm.ranks.length
  rank_lt : rank < comm.ranks.length
  undefined_not_rank : ¬ (0 ≤ undefined ∧ undefined < comm.ranks.length)

def World.size (w : World) : Nat := w.comm.ranks.length

/-- `ARMCI_Group`; `none` is `MPI_COMM_NULL` and the null table. -/
structure Group where
  comm : Option Comm
  noncollPgroupComm : Option Comm
  rank : Int
  size : Int
  grpToAbs : Option (List Int)
  absToGrp : Option (List Int)
  deriving DecidableEq

/-- `MPI_Group_translate_ranks` of one rank. -/
def World.translateRank (w : World) (dst : Comm) (worldRank : Nat) : Int :=
  match dst.rankOf worldRank with
  | some g => g
  | none => w.undefined

/-- `ARMCII_Group_init_from_comm`; `dup` is what `MPI_Comm_dup` of the group's
communicator gives. Without a communicator the caching branch leaves the
tables as they were. -/
def groupInitFromComm (w : World) (cfg : GlobalState) (dup : Comm) (g : Group) : Group :=
  match g.comm with
  | some c =>
    { comm := some c
      size := c.ranks.length
      rank := w.translateRank c w.rank
      noncollPgroupComm := if cfg.noncollectiveGroups then some dup else none
      grpToAbs :=
        if cfg.cacheRankTranslation then some (c.ranks.map (w.translateRank w.comm)) else none
      absToGrp :=
        if cfg.cacheRankTranslation then some ((List.range w.size).map (w.translateRank c))
        else none }
  | none =>
    { comm := none
      size := 0
      rank := -1
      noncollPgroupComm := none
      grpToAbs := if cfg.cacheRankTranslation then g.grpToAbs else none
      absToGrp := if cfg.cacheRankTranslation then g.absToGrp else none }

def translateAbsoluteToGroup (w : World) (group : Group) (worldRank : Nat) : Except String Int :=
  if ¬ worldRank < w.size then
    .error "world_rank >= 0 && world_rank < ARMCI_GROUP_WORLD.size"
  else if group.comm = some w.comm then
    .ok worldRank
  else if group.grpToAbs.isSome then
    -- the cached entry is returned as it is
    .ok (((group.absToGrp.getD [])[worldRank]?).getD 0)
  else
    match group.comm with
    | some c =>
      let groupRank := w.translateRank c worldRank
      if groupRank = w.undefined then .ok (-1) else .ok groupRank
    | none => .ok (-1)

/-- `ARMCI_Absolute_id`. -/
def absoluteId (w : World) (group : Group) (groupRank : Int) : Except String Int :=
  if ¬ (0 ≤ groupRank ∧ groupRank < group.size) then
    .error "group_rank >= 0 && group_rank < group->size"
  else
    let worldRank : Int :=
      if group.comm = some w.comm then groupRank
      else
        match group.grpToAbs, group.comm with
        | some table, _ => (table[groupRank.toNat]?).getD 0
        | none, some c =>
          ((c.ranks[groupRank.toNat]?).map (w.translateRank w.comm)).getD w.undefined
        | none, none => w.undefined
    if worldRank = w.undefined then .ok (-1) else .ok worldRank

-- ------------------------------
-- Translation
-- ------------------------------

def Group.From (w : World) (cfg : GlobalState) (c : Comm) (g : Group) : Prop :=
  (∀ r ∈ c.ranks, r < w.size) ∧ ∃ dup g₀, g₀.comm = some c ∧ g = groupInitFromComm w cfg dup g₀

theorem World.rankOf_world (w : World) (h : p < w.size) : w.comm.rankOf p = some p := by
  rw [Comm.rankOf_eq_some, w.world_ranks]
  exact List.getElem?_range h

section
variable {w : World} {cfg : GlobalState} {c : Comm} {g : Group}

theorem Group.From.comm (h : g.From w cfg c) : g.comm = some c := by
  obtain ⟨-, dup, g₀, hc, rfl⟩ := h
  simp [groupInitFromComm, hc]

theorem Group.From.size (h : g.From w cfg c) : g.size = c.ranks.length := by
  obtain ⟨-, dup, g₀, hc, rfl⟩ := h
  simp [groupInitFromComm, hc]

theorem Group.From.grpToAbs (h : g.From w cfg c) :
    g.grpToAbs.isSome = cfg.cacheRankTranslation := by
  obtain ⟨-, dup, g₀, hc, rfl⟩ := h
  cases hcache : cfg.cacheRankTranslation <;> simp [groupInitFromComm, hc, hcache]

theorem Group.From.absToGrp (h : g.From w cfg c) (hcache : cfg.cacheRankTranslation = true) :
    g.absToGrp = some ((List.range w.size).map (w.translateRank c)) := by
  obtain ⟨-, dup, g₀, hc, rfl⟩ := h
  simp [groupInitFromComm, hc, hcache]

theorem Group.From.length_le (h : g.From w cfg c) : c.ranks.length ≤ w.size := by
  have hsub : c.ranks ⊆ List.range w.size := fun r hr => List.mem_range.mpr (h.1 r hr)
  simpa using (List.subperm_of_subset c.nodup hsub).length_le

theorem Group.From.translateRank_ne (h : g.From w cfg c) (hr : c.rankOf p = some r) :
    w.translateRank c p = r ∧ (r : Int) ≠ w.undefined := by
  refine ⟨by simp [World.translateRank, hr], fun heq => w.undefined_not_rank ?_⟩
  have hlt := Comm.rankOf_lt hr
  have hle := h.length_le
  unfold World.size at hle
  omega

theorem translate_member (h : g.From w cfg c) (hr : c.rankOf p = some r) :
    translateAbsoluteToGroup w g p = .ok (r : Int) := by
  have hp : p < w.size := h.1 p (Comm.rankOf_isSome.mp (by simp [hr]))
  obtain ⟨htr, hne⟩ := h.translateRank_ne hr
  simp only [translateAbsoluteToGroup, h.comm, hp, not_true, if_false, Option.some.injEq,
    h.grpToAbs]
  split
  · rename_i hworld
    subst hworld
    rw [w.rankOf_world hp] at hr
    cases hr
    rfl
  · split
    · rename_i hcache
      simp [h.absToGrp hcache, List.getElem?_range hp, htr]
    · simp [htr, hne]

theorem Group.From.comm_ne (h : g.From w cfg c) (hp : p < w.size) (hr : c.rankOf p = none) :
    g.comm ≠ some w.comm := by
  rw [h.comm]
  rintro heq
  cases heq
  rw [w.rankOf_world hp] at hr
  cases hr

theorem translate_cached (h : g.From w cfg c) (hcache : cfg.cacheRankTranslation = true)
    (hp : p < w.size) (hr : c.rankOf p = none) :
    translateAbsoluteToGroup w g p = .ok w.undefined := by
  have htr : w.translateRank c p = w.undefined := by simp [World.translateRank, hr]
  simp [translateAbsoluteToGroup, hp, h.comm_ne hp hr, h.grpToAbs, hcache, h.absToGrp hcache,
    htr]

theorem translate_uncached (h : g.From w cfg c) (hcache : cfg.cacheRankTranslation = false)
    (hp : p < w.size) (hr : c.rankOf p = none) :
    translateAbsoluteToGroup w g p = .ok (-1) := by
  have htr : w.translateRank c p = w.undefined := by simp [World.translateRank, hr]
  have hne := h.comm_ne hp hr
  rw [h.comm] at hne
  simp [translateAbsoluteToGroup, hp, hne, h.grpToAbs, hcache, h.comm, htr]

theorem translate_nonmember (h : g.From w cfg c) (hp : p < w.size) (hr : c.rankOf p = none) :
    ∃ v, translateAbsoluteToGroup w g p = .ok v ∧ ¬ (0 ≤ v ∧ v < g.size) := by
  cases hcache : cfg.cacheRankTranslation with
  | true =>
    refine ⟨_, translate_cached h hcache hp hr, ?_⟩
    have hle := h.length_le
    have hnr := w.undefined_not_rank
    rw [h.size]
    unfold World.size at hle
    omega
  | false => exact ⟨_, translate_uncached h hcache hp hr, by omega⟩

theorem absoluteId_member (h : g.From w cfg c) (hr : c.rankOf p = some r) :
    absoluteId w g r = .ok (p : Int) := by
  have hp : p < w.size := h.1 p (Comm.rankOf_isSome.mp (by simp [hr]))
  have hne : (p : Int) ≠ w.undefined := fun heq => w.undefined_not_rank (by
    unfold World.size at hp
    omega)
  have hworld : w.translateRank w.comm p = p := by simp [World.translateRank, w.rankOf_world hp]
  have hget : c.ranks[r]? = some p := Comm.rankOf_eq_some.mp hr
  have hlt : 0 ≤ (r : Int) ∧ (r : Int) < g.size := by
    have := Comm.rankOf_lt hr
    rw [h.size]
    omega
  simp only [absoluteId, hlt, and_self, not_true, if_false, h.comm, Option.some.injEq]
  split
  · rename_i heq
    subst heq
    rw [w.rankOf_world hp] at hr
    cases hr
    rw [if_neg hne]
  · obtain ⟨-, dup, g₀, hc, rfl⟩ := h
    cases hcache : cfg.cacheRankTranslation <;>
      simp [groupInitFromComm, hc, hcache, hget, hworld, hne]

theorem Comm.exists_rankOf (c : Comm) {r : Int} (h₀ : 0 ≤ r) (h₁ : r < c.ranks.length) :
    ∃ p n : Nat, r = n ∧ c.rankOf p = some n := by
  obtain ⟨n, rfl⟩ := Int.eq_ofNat_of_zero_le h₀
  have hlt : n < c.ranks.length := by omega
  exact ⟨c.ranks[n], n, rfl, Comm.rankOf_eq_some.mpr (List.getElem?_eq_getElem hlt)⟩

structure Inverse (w : World) (c : Comm) (g : Group) : Prop where
  left : ∀ r : Int, 0 ≤ r → r < g.size → ∃ p : Nat, absoluteId w g r = .ok (p : Int) ∧
    translateAbsoluteToGroup w g p = .ok r
  right : ∀ p ∈ c.ranks, ∃ r, translateAbsoluteToGroup w g p = .ok r ∧
    absoluteId w g r = .ok (p : Int)

theorem Group.From.inverse (h : g.From w cfg c) : Inverse w c g where
  left r h₀ h₁ := by
    rw [h.size] at h₁
    obtain ⟨p, n, rfl, hr⟩ := c.exists_rankOf h₀ h₁
    exact ⟨p, absoluteId_member h hr, translate_member h hr⟩
  right p hp := by
    obtain ⟨r, hr⟩ := Option.isSome_iff_exists.mp (Comm.rankOf_isSome.mpr hp)
    exact ⟨r, translate_member h hr, absoluteId_member h hr⟩

end

def pairWorld : World where
  comm := ⟨0, [0, 1], by decide⟩
  rank := 0
  undefined := -32766
  world_ranks := rfl
  rank_lt := by decide
  undefined_not_rank := by decide

/-- Without tables a world rank is translated to its rank in the group or to -1. With
tables the translation is the same exactly for the members of the group. Group ranks are
translated alike, and both pairs of translations are inverse. -/
theorem translations_agree_iff (w : World) (hundef : w.undefined ≠ -1) (c : Comm)
    (cfgOn cfgOff : GlobalState) (hcacheOn : cfgOn.cacheRankTranslation = true)
    (hcacheOff : cfgOff.cacheRankTranslation = false) (on off : Group) (hon : on.From w cfgOn c)
    (hoff : off.From w cfgOff c) :
    (∀ p, p < w.size →
      translateAbsoluteToGroup w off p = .ok (((c.rankOf p).map Int.ofNat).getD (-1)) ∧
      (translateAbsoluteToGroup w on p = translateAbsoluteToGroup w off p ↔ p ∈ c.ranks)) ∧
    (∀ r : Int, 0 ≤ r → r < c.ranks.length → absoluteId w on r = absoluteId w off r) ∧
    Inverse w c on ∧ Inverse w c off := by
  refine ⟨fun p hp => ?_, fun r h₀ h₁ => ?_, hon.inverse, hoff.inverse⟩
  · cases hr : c.rankOf p with
    | some r =>
      have hmem : p ∈ c.ranks := Comm.rankOf_isSome.mp (by simp [hr])
      rw [translate_member hoff hr, translate_member hon hr]
      exact ⟨rfl, iff_of_true rfl hmem⟩
    | none =>
      have hmem : p ∉ c.ranks := fun hmem => by
        have := Comm.rankOf_isSome.mpr hmem
        rw [hr] at this
        cases this
      rw [translate_uncached hoff hcacheOff hp hr, translate_cached hon hcacheOn hp hr]
      exact ⟨rfl, iff_of_false (fun heq => hundef (Except.ok.inj heq)) hmem⟩
  · obtain ⟨p, n, rfl, hr⟩ := c.exists_rankOf h₀ h₁
    rw [absoluteId_member hon hr, absoluteId_member hoff hr]

def tableState (cache : Bool) : GlobalState :=
  ⟨false, 0, 0, false, cache, true, false, false, .direct, .batched, .noguard, true⟩

def selfComm : Comm := ⟨1, [0], by decide⟩

def loneGroup (cache : Bool) : Group :=
  groupInitFromComm pairWorld (tableState cache) ⟨2, [0], selfComm.nodup⟩
    ⟨some selfComm, none, 0, 0, none, none⟩

theorem loneGroup_from (cache : Bool) :
    (loneGroup cache).From pairWorld (tableState cache) selfComm :=
  ⟨by decide, _, _, rfl, rfl⟩

/-- Rank 1 is outside of the group of rank 0: the table says `MPI_UNDEFINED`. -/
theorem translations_disagree : pairWorld.undefined ≠ -1 ∧
    translateAbsoluteToGroup pairWorld (loneGroup true) 1 = .ok (-32766) ∧
    translateAbsoluteToGroup pairWorld (loneGroup false) 1 = .ok (-1) := by
  decide

theorem translations_agree_iff_lone :
    translateAbsoluteToGroup pairWorld (loneGroup true) 0 =
      translateAbsoluteToGroup pairWorld (loneGroup false) 0 ∧
    absoluteId pairWorld (loneGroup true) 0 = absoluteId pairWorld (loneGroup false) 0 := by
  obtain ⟨htr, habs, -⟩ := translations_agree_iff pairWorld (by decide) selfComm
    (tableState true) (tableState false) rfl rfl (loneGroup true) (loneGroup false)
    (loneGroup_from true) (loneGroup_from false)
  exact ⟨(htr 0 (by decide)).2.mpr (by decide), habs 0 (by decide) (by decide)⟩

end ArmciMpi
