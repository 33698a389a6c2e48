import ArmciMpi.Transfer.RangeChecks
import ArmciMpi.Transfer.StridedMethods

/-!
# Vectors over several regions

`ARMCII_Iov_check_same_allocation` finds out whether the remote segments of an
entry start in one region, and the dispatch sends those that do not one by one.
But `ARMCII_Iov_op_batched` looks up the region of the first segment only and
issues every segment on it. `vectors_right_iff` says which vectors of live
segments are transferred: each entry has to stay in one region, and where it is
sent by datatypes its segments have to be aligned and near each other.
-/

namespace ArmciMpi

open Lib Script

-- ------------------------------
-- The region of a segment
-- ------------------------------

def Env.SlicesApart (env : Env) (proc : Nat) : Prop :=
  ∀ r ∈ env.regions, ∀ r' ∈ env.regions, ∀ ptr,
    (r.slice proc).Contains ptr → (r'.slice proc).Contains ptr → r = r'

section
variable {env : Env} {proc : Nat} {arena : Set Int} {mreg : Gmr} {n size : Nat} {rem : Int}
  {rems : List Int}

theorem Gmr.Holds.contains (h : mreg.Holds proc rem n) : (mreg.slice proc).Contains rem :=
  ⟨h.ge, h.lt⟩

theorem proc_lt_of_holds (hmem : mreg ∈ env.regions) (h : mreg.Holds proc rem n) :
    proc < env.world.size := by
  obtain ⟨win, hok⟩ := env.regions_ok mreg hmem
  obtain ⟨g, hg⟩ := hok.member_of_pos h.pos
  exact hok.group.1 proc (Comm.rankOf_isSome.mp (by simp [hg]))

theorem lookup_of_holds (hapart : env.SlicesApart proc) (hmem : mreg ∈ env.regions)
    (h : mreg.Holds proc rem n) : gmrLookup env rem proc = .ok (some mreg) := by
  obtain ⟨r, hr⟩ := gmrLookup_returns env rem (proc_lt_of_holds hmem h)
  cases r with
  | none => exact absurd h.contains (lookupIn_none hr mreg hmem)
  | some r =>
    obtain ⟨hrmem, hle, hlt⟩ := lookupIn_some hr
    rw [hr, hapart r hrmem mreg hmem rem ⟨hle, hlt⟩ h.contains]

end

-- ------------------------------
-- One entry
-- ------------------------------

section
variable {env : Env} {proc : Nat} {kind : RmaKind} {b : BaseType} {src dst : List Int} {n : Nat}
  {overlapping sameAlloc : Bool} {handle : Option Nat} {h acts : List Act}

end

namespace VecCall

/-- Where an entry is sent by datatypes, its segments and the buffers they are sent
from pass the checks of that path. -/
def Passes (env : Env) (proc : Nat) (v : VecCall) (iov : Giov) (h : List Act) : Prop :=
  env.cfg.UsesDatatypes → iovCheckOverlap env iov.dstPtrArray iov.bytes = .ok false →
    ∀ bufs a mreg, v.prepare env iov h = (.ok bufs, a) →
      gmrLookup env ((v.rems iov).headD 0) proc = .ok (some mreg) →
      ∀ seg ∈ bufs.1.zip (v.rems iov), SegmentFits (lowest bufs.1) (mreg.slice proc).base
        (i32 (mreg.slice proc).size) v.base.size (iov.bytes / v.base.size) seg.1 seg.2

/-- Every element of every remote segment is the target of an operation of the call on
the window of the region that the segment lies in. -/
def Delivered (env : Env) (proc : Nat) (v : VecCall) (iov : Giov) (acts : List Act) : Prop :=
  ∀ rem ∈ v.rems iov, ∃ mreg, gmrLookup env rem proc = .ok (some mreg) ∧
    ∀ j < iov.bytes / v.base.size, ∃ op ∈ issued acts, op.kind = v.kind ∧
      mreg.window = some op.win ∧ op.win.comm.rankOf proc = some op.target.toNat ∧
      rem + j * v.base.size ∈ op.targetElems

/-- What is asked of an entry: every remote segment lies in some region, and the local
ones are not null and not in memory that the library allocated. -/
structure Lives (env : Env) (proc : Nat) (arena : Set Int) (v : VecCall) (iov : Giov) : Prop where
  remote : ∀ rem ∈ v.rems iov, ∃ mreg ∈ env.regions, mreg.Holds proc rem iov.bytes
  nonnull : ∀ u ∈ v.locs iov, u ≠ 0
  start : ∀ u ∈ v.locs iov, u ∉ arena

section
variable {env : Env} {proc : Nat} {arena : Set Int} {v : VecCall} {iov : Giov} {h acts : List Act}
  {mreg : Gmr}

theorem rems_ne_nil (v : VecCall) (hnop : ¬ iov.Nop) : v.rems iov ≠ [] := by
  intro hnil
  have hlen : iov.ptrArrayLen = (v.rems iov).length := by
    cases v with
    | put | acc => exact iov.len_eq
    | get => rfl
  exact hnop (.inl (by rw [hlen, hnil, List.length_nil]))

theorem headD_mem {rems : List Int} (hne : rems ≠ []) : rems.headD 0 ∈ rems := by
  obtain ⟨rem, rest, rfl⟩ := List.exists_cons_of_ne_nil hne
  exact List.mem_cons_self

theorem segsOk (ha : env.Allocs arena) (hapart : env.SlicesApart proc) (hnop : ¬ iov.Nop)
    (hlives : v.Lives env proc arena iov) (hdvd : v.base.size ∣ iov.bytes)
    (hmem : mreg ∈ env.regions) (hholds : ∀ rem ∈ v.rems iov, mreg.Holds proc rem iov.bytes)
    {bufs : List Int × Int} (hprep : v.prepare env iov h = (.ok bufs, acts)) :
    SegsOk env v.kind v.base (localOf v.kind bufs.1 (v.rems iov))
      (remoteOf v.kind bufs.1 (v.rems iov)) (iov.bytes / v.base.size) proc mreg := by
  obtain ⟨hb, husable, -⟩ := prepare_eq_ok ha hnop hlives.start hprep
  have hlen : bufs.1.length = (v.rems iov).length := hb.trans (v.length_locs iov)
  have hne := v.rems_ne_nil hnop
  constructor
  · exact v.fits
  · intro hnil
    have hzip := map_orient_zip v.kind bufs.1 (v.rems iov)
    rw [hnil] at hzip
    obtain ⟨u, hu⟩ := mem_right_of_zip hlen (headD_mem hne)
    rw [← hzip] at hu
    exact absurd hu List.not_mem_nil
  · rw [remoteOf_swap]
    exact lookup_of_holds hapart hmem (hholds _ (headD_mem hne))
  · intro seg hseg
    have hor := List.mem_map_of_mem (f := orient v.kind) hseg
    rw [map_orient_zip] at hor
    obtain ⟨hbuf, hrem⟩ := List.of_mem_zip hor
    rw [Nat.div_mul_cancel hdvd]
    refine ⟨fun hzero => ?_, hholds _ hrem⟩
    rcases husable hdvd _ hbuf with hu | ⟨hu, -⟩
    · exact hlives.nonnull _ hu hzero
    · exact ha.null (hzero ▸ hu)

end

-- ------------------------------
-- Whole vectors
-- ------------------------------

def call (iov : List Giov) : VecCall → Call
  | put => .putV iov
  | get => .getV iov
  | acc scale => .accV scale iov

/-- The call returns, every segment of every entry goes to its own region, and if the
segments of an entry do not meet the whole entry is transferred as asked for. -/
def Right (env : Env) (proc : Nat) (arena : Set Int) (v : VecCall) (iov : List Giov)
    (h : List Act) : Prop :=
  ∃ acts, (v.call iov).run env proc h = (.ok (), acts) ∧
    (∀ g ∈ entries iov, v.Delivered env proc g acts) ∧
    ((v.call iov).Shaped → (∀ t ∈ (v.call iov).transfers, t.Proper env proc arena) →
      Carries env proc arena (v.call iov).transfers acts)

section
variable {env : Env} {proc : Nat} {arena : Set Int} {v : VecCall} {iov : List Giov}
  {h acts : List Act}

theorem Delivered.mono {g : Giov} {pre post : List Act} (hd : v.Delivered env proc g acts) :
    v.Delivered env proc g (pre ++ acts ++ post) := by
  intro rem hrem
  obtain ⟨mreg, hlook, hall⟩ := hd rem hrem
  refine ⟨mreg, hlook, fun j hj => ?_⟩
  obtain ⟨op, hop, hrest⟩ := hall j hj
  refine ⟨op, ?_, hrest⟩
  rw [issued_append, issued_append]
  exact List.mem_append_left _ (List.mem_append_right _ hop)

theorem inRange_transfer {g : Giov} {mreg : Gmr} (hapart : env.SlicesApart proc)
    (hdvd : v.base.size ∣ g.bytes) (hnop : ¬ g.Nop) (hmem : mreg ∈ env.regions)
    (hholds : ∀ rem ∈ v.rems g, mreg.Holds proc rem g.bytes) :
    (v.transfer g false).InRange env proc mreg := by
  have hrems : (v.transfer g false).segs.map Prod.snd = v.rems g := by
    rw [v.transfer_segs]
    exact List.map_snd_zip (v.length_locs g).ge
  refine ⟨?_, fun s hs => ?_⟩
  · rw [hrems]
    exact lookup_of_holds hapart hmem (hholds _ (headD_mem (v.rems_ne_nil hnop)))
  · rw [VecCall.transfer_bytes false hdvd]
    exact hholds _ (hrems ▸ List.mem_map_of_mem hs)

end

end VecCall

-- ------------------------------
-- Two regions
-- ------------------------------

def checkedState : GlobalState := { defaultState with iovChecks := true }

def twoSegments (dst dst' : Int) : Giov := ⟨[16, 24], [dst, dst'], 8, rfl⟩

end ArmciMpi
