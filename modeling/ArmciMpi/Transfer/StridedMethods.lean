import ArmciMpi.Transfer.Guard

/-!
# Strided methods agree

A strided call is sent as one operation on two subarray types, or as a vector
segment by segment. `strided_methods_agree` says that for correct
specifications the choice makes no difference: either both ways pass the range
checks or none does, and the memory is the same after them.

A correct specification keeps its blocks apart, so nothing is asked about the
targets of one call. Only when a process calls itself, the local and the remote
blocks must not meet: MPI gives operations on overlapping buffers no meaning.
-/

namespace ArmciMpi

open Lib Script

-- ------------------------------
-- The two methods
-- ------------------------------

/-- The process with another method for strided calls. Vectors are sent segment by
segment. -/
def Env.strided (env : Env) (method : StridedMethod) : Env where
  world := env.world
  cfg := { env.cfg with stridedMethod := method, iovMethod := .batched }
  regions := env.regions
  allocMem := env.allocMem
  regions_ok := fun r hr => by
    obtain ⟨win, hok⟩ := env.regions_ok r hr
    exact ⟨win, hok.window, hok.group, hok.member, hok.nslices, hok.outside, hok.base, hok.nonnull⟩

/-- Where the buffers of a transfer are: outside scratch memory, and no source meets a
target. -/
structure Transfer.Placed (env : Env) (proc : Nat) (arena : Set Int) (t : Transfer) : Prop where
  nonnull : ∀ s ∈ t.segs, s.1 ≠ 0
  start : ∀ s ∈ t.segs, s.1 ∉ arena
  user : ∀ s ∈ t.segs, block (env.me, s.1) t.bytes ⊆ (scratch env.me arena)ᶜ
  outside : ∀ s ∈ t.segs, block (proc, s.2) t.bytes ⊆ (scratch env.me arena)ᶜ
  sources : ∀ s ∈ t.segs, ∀ s' ∈ t.segs, Disjoint
    (block (t.kind.ends env.me proc s).1 t.bytes) (block (t.kind.ends env.me proc s').2 t.bytes)

def Call.IsStrided : Call → Prop
  | putS .. | getS .. | accS .. => True
  | _ => False

section
variable {env : Env} {proc : Nat} {arena : Set Int} {method : StridedMethod} {t : Transfer}

theorem Env.Allocs.strided (ha : env.Allocs arena) : (env.strided method).Allocs arena :=
  ⟨ha.null, ha.canAlloc, ha.mem, ha.inside, ha.fresh⟩

theorem Transfer.Proper.strided (hp : t.Proper env proc arena) :
    t.Proper (env.strided method) proc arena :=
  ⟨hp.fits, hp.nonempty, hp.nonnull, hp.start, hp.user, hp.outside, hp.spread, hp.fill_length,
    hp.fill_get⟩

theorem Transfer.inRange_strided {mreg : Gmr} :
    t.InRange (env.strided method) proc mreg ↔ t.InRange env proc mreg :=
  ⟨fun h => ⟨h.region, h.holds⟩, fun h => ⟨h.region, h.holds⟩⟩

end

-- ------------------------------
-- Blocks of a correct specification
-- ------------------------------

section
variable {stride : Nat → Int} {count : Nat → Nat} {levels k : Nat}

theorem StridedOk.apart (hok : StridedOk stride count levels k) :
    (stridedBlocks stride count levels).Pairwise fun d d' => d + (count 0 : Int) ≤ d' := by
  induction levels with
  | zero => exact List.pairwise_singleton _ _
  | succ levels ih =>
    rw [stridedBlocks, List.pairwise_flatMap]
    have hpos := hok.stride_pos (i := levels) (by omega)
    refine ⟨fun j _ => ?_, List.pairwise_lt_range.imp fun {j j'} hj => ?_⟩
    · refine List.pairwise_map.mpr ((ih (hok.mono (by omega))).imp fun hle => ?_)
      omega
    · intro d hd d' hd'
      obtain ⟨e, he, rfl⟩ := List.mem_map.mp hd
      obtain ⟨e', he', rfl⟩ := List.mem_map.mp hd'
      have hend := hok.block_end e he
      have hstart := (hok.mono (Nat.le_succ _)).nonneg e' he'
      have hlt : (j : Int) + 1 ≤ j' := by exact_mod_cast hj
      have hstep := Int.mul_le_mul_of_nonneg_left hlt hpos.le
      rw [Int.mul_add, Int.mul_one] at hstep
      omega

end

section
variable {env : Env} {proc : Nat} {arena : Set Int} {kind : RmaKind} {b : BaseType}
  {fill : List UInt8 → List UInt8} {loc rem : Int} {locStride remStride : Nat → Int}
  {count : Nat → Nat} {levels : Nat}

theorem stridedTransfer_proper (hfits : kind.Fits b) (hlength : ∀ x, x.length = b.size →
    (fill x).length = b.size) (hget : kind = .get → fill = id)
    (hloc : StridedOk locStride count levels b.size)
    (hrem : StridedOk remStride count levels b.size)
    (hpl : (stridedTransfer kind b fill loc locStride rem remStride count levels).Placed env proc
      arena) :
    (stridedTransfer kind b fill loc locStride rem remStride count levels).Proper env proc arena := by
  have hlen := userBlocks_length loc rem locStride remStride count levels
  have hbytes : count 0 / b.size * b.size = count 0 := Nat.div_mul_cancel hloc.count_dvd
  have happart : ∀ (user : Int) {stride : Nat → Int}, StridedOk stride count levels b.size →
      ∀ p, (userBlocks user stride count levels).Pairwise fun u u' =>
        Disjoint (block (p, u) (count 0)) (block (p, u') (count 0)) := by
    intro user stride hok p
    refine List.pairwise_map.mpr (hok.apart.imp fun {d d'} hle => block_disjoint fun _ => .inl ?_)
    exact (Int.add_assoc _ _ _).trans_le (Int.add_le_add_left hle user)
  refine ⟨hfits, ?_, hpl.nonnull, hpl.start, hpl.user, hpl.outside, ⟨?_, ?_⟩, hlength, hget⟩
  · obtain ⟨ds, hds⟩ := hloc.head
    obtain ⟨ds', hds'⟩ := hrem.head
    rw [stridedTransfer, hds, hds']
    exact List.cons_ne_nil _ _
  · rw [List.pairwise_map, Transfer.bytes]
    show ((userBlocks loc locStride count levels).zip
      (userBlocks rem remStride count levels)).Pairwise fun s s' => Disjoint
        (block (kind.ends env.me proc s).2 (count 0 / b.size * b.size))
        (block (kind.ends env.me proc s').2 (count 0 / b.size * b.size))
    rw [hbytes]
    have hrems := happart rem hrem proc
    rw [← List.map_snd_zip hlen.ge, List.pairwise_map] at hrems
    have hlocs := happart loc hloc env.me
    rw [← List.map_fst_zip hlen.le, List.pairwise_map] at hlocs
    cases kind with
    | put | acc => exact hrems
    | get => exact hlocs
  · intro e he e' he'
    obtain ⟨s, hs, rfl⟩ := List.mem_map.mp he
    obtain ⟨s', hs', rfl⟩ := List.mem_map.mp he'
    exact hpl.sources s hs s' hs'

end

theorem Scale.applied_length {scale : Scale} (hunit : scale.unit = scale.base.size) (x : List UInt8)
    (hx : x.length = scale.base.size) : (scale.applied x).length = scale.base.size := by
  unfold Scale.applied
  split
  · rw [scale.mul_length, hunit]
  · exact hx

theorem Call.proper_of_placed {env : Env} {proc : Nat} {arena : Set Int} {c : Call}
    (hs : c.IsStrided) (hshape : c.Shaped)
    (hpl : ∀ t ∈ c.transfers, t.Placed env proc arena) :
    ∀ t ∈ c.transfers, t.Proper env proc arena := by
  intro t ht
  have hpl := hpl t ht
  cases c with
  | putS src srcStride dst dstStride count levels =>
    obtain rfl := List.mem_singleton.mp ht
    exact stridedTransfer_proper (.inr rfl) (fun _ h => h) (fun _ => rfl) hshape.1 hshape.2 hpl
  | getS src srcStride dst dstStride count levels =>
    obtain rfl := List.mem_singleton.mp ht
    exact stridedTransfer_proper (.inr rfl) (fun _ h => h) (fun _ => rfl) hshape.2 hshape.1 hpl
  | accS scale src srcStride dst dstStride count levels =>
    obtain rfl := List.mem_singleton.mp ht
    exact stridedTransfer_proper (.inl rfl) (Scale.applied_length hshape.1) (fun h => by cases h)
      hshape.2.1 hshape.2.2 hpl
  | _ => exact hs.elim

-- ------------------------------
-- What the checks let pass
-- ------------------------------

/-- What the checks of segments find out. They pass over the null address. -/
def Transfer.Checked (env : Env) (proc : Nat) (t : Transfer) : Prop :=
  ∃ mreg, gmrLookup env ((t.segs.map Prod.snd).headD 0) proc = .ok (some mreg) ∧
    ∀ s ∈ t.segs, s.2 ≠ 0 → mreg.Holds proc s.2 t.bytes

section
variable {env : Env} {proc : Nat} {arena : Set Int} {mreg : Gmr} {win : Win} {g : Nat}
  {kind : RmaKind} {b : BaseType} {n : Nat} {handle : Option Nat} {h acts : List Act}

theorem gmrSegment_checked (hr : Reaches env mreg proc win g) (hfit : kind.Fits b) {src dst : Int}
    (hrem : remoteOf kind src dst ≠ 0)
    (hrun : gmrSegment env kind mreg src dst n (.predefined b) proc handle h = (.ok (), acts)) :
    mreg.Holds proc (remoteOf kind src dst) (n * b.size) := by
  obtain ⟨atomic, heq⟩ := gmrSegment_eq env mreg proc hfit src dst n handle
  rw [heq] at hrun
  obtain ⟨-, hrma⟩ := require_bind_eq_ok.mp hrun
  exact (covers_iff hrem n b).mp (gmrRmaTyped_eq_ok hr hrma).1

theorem batchedLoop_checked (hr : Reaches env mreg proc win g) (hfit : kind.Fits b)
    {consrv blocking : Bool} {i : Nat} {fl fl' : Bool} {segs : List (Int × Int)}
    (hrun : batchedLoop env kind mreg n (.predefined b) proc consrv blocking handle i fl segs h =
      (.ok fl', acts)) :
    ∀ seg ∈ segs, remoteOf kind seg.1 seg.2 ≠ 0 →
      mreg.Holds proc (remoteOf kind seg.1 seg.2) (n * b.size) := by
  induction segs generalizing i fl h acts with
  | nil => exact fun seg hseg => absurd hseg List.not_mem_nil
  | cons seg segs ih =>
    have hrest : ∀ {h acts}, (do
        gmrSegment env kind mreg seg.1 seg.2 n (.predefined b) proc handle
        batchedLoop env kind mreg n (.predefined b) proc consrv blocking handle (i + 1)
          (kind != .get) segs : Script Act Bool) h = (.ok fl', acts) →
        ∀ s ∈ seg :: segs, remoteOf kind s.1 s.2 ≠ 0 →
          mreg.Holds proc (remoteOf kind s.1 s.2) (n * b.size) := by
      intro h acts hrun
      obtain ⟨_, a, a', hone, hloop, rfl⟩ := bind_eq_ok.mp hrun
      exact List.forall_mem_cons.mpr ⟨fun hrem => gmrSegment_checked hr hfit hrem hone, ih hloop⟩
    unfold batchedLoop at hrun
    split at hrun
    · obtain ⟨_, a, a', -, hloop, rfl⟩ := bind_eq_ok.mp hrun
      exact hrest hloop
    · exact hrest hrun

theorem Transfer.checked_dispatch {t : Transfer} {users bufs rems : List Int}
    (hm : env.cfg.iovMethod = .batched) (hfits : t.kind.Fits t.base)
    (hsegs : t.segs = users.zip rems) (hb : bufs.length = users.length)
    (hlen : users.length = rems.length) {overlapping sameAlloc : Bool}
    (hrun : iovOpDispatch env t.kind (localOf t.kind bufs rems) (remoteOf t.kind bufs rems) t.bytes
      (.predefined t.base) overlapping sameAlloc proc true none h = (.ok (), acts)) :
    t.Checked env proc := by
  have hrems : t.segs.map Prod.snd = rems := hsegs ▸ List.map_snd_zip hlen.ge
  rcases iovOpDispatch_eq env proc t.kind t.base (localOf t.kind bufs rems)
    (remoteOf t.kind bufs rems) t.count overlapping sameAlloc none with
      ⟨-, consrv, heq⟩ | ⟨hway, -⟩
  · rw [Transfer.bytes, heq] at hrun
    obtain ⟨r, hlook, hrest⟩ := lift_bind_eq_ok.mp hrun
    obtain ⟨mreg, hfound, hrest⟩ := lift_bind_eq_ok.mp hrest
    obtain ⟨_, a, a', hloop, -, rfl⟩ := bind_eq_ok.mp hrest
    obtain rfl := found_eq_ok.mp hfound
    rw [remoteOf_swap] at hlook
    obtain ⟨win, g, hr⟩ := gmrLookup_reaches hlook
    refine ⟨mreg, hrems ▸ hlook, fun s hs hne => ?_⟩
    -- the segment is sent with the buffer that replaces the local one
    obtain ⟨buf, hmem⟩ := mem_right_of_zip (hb.trans hlen)
      (show s.2 ∈ rems from hrems ▸ List.mem_map_of_mem hs)
    rw [← map_orient_zip t.kind] at hmem
    obtain ⟨seg, hseg, hor⟩ := List.mem_map.mp hmem
    have hsnd : remoteOf t.kind seg.1 seg.2 = s.2 := congrArg Prod.snd hor
    exact hsnd ▸ batchedLoop_checked hr hfits hloop seg hseg (hsnd ▸ hne)
  · exact absurd hm hway.2

theorem VecCall.entry_checked {v : VecCall} {iov : Giov} {whole : Bool} (ha : env.Allocs arena)
    (hm : env.cfg.iovMethod = .batched) (hdvd : v.base.size ∣ iov.bytes)
    (hp : (v.transfer iov whole).Proper env proc arena) (hnop : ¬ iov.Nop)
    (hrun : v.entry env proc iov h = (.ok (), acts)) : (v.transfer iov whole).Checked env proc := by
  obtain ⟨overlapping, sameAlloc, bufs, a, b, c, -, -, hprep, hdisp, -, rfl⟩ :=
    VecCall.entry_eq_ok hnop hrun
  obtain ⟨hb, -⟩ := VecCall.prepare_eq_ok ha hnop (VecCall.start hp) hprep
  rw [VecCall.dispatch, ← v.transfer_kind iov whole, ← v.transfer_base iov whole,
    ← VecCall.transfer_bytes whole hdvd] at hdisp
  exact Transfer.checked_dispatch hm hp.fits (v.transfer_segs iov whole) hb (v.length_locs iov) hdisp

end

-- ------------------------------
-- Calls that return
-- ------------------------------

section
variable {env : Env} {proc : Nat} {arena : Set Int} {kind : RmaKind} {b : BaseType}
  {fill : List UInt8 → List UInt8} {loc rem : Int} {locStride remStride : Nat → Int}
  {count : Nat → Nat} {levels : Nat} {h acts : List Act} {mreg : Gmr}

theorem pos_of_lookup {ptr : Int} (hlook : gmrLookup env ptr proc = .ok (some mreg)) : 0 < ptr := by
  obtain ⟨win, g, hr⟩ := gmrLookup_reaches hlook
  obtain ⟨-, hle, hlt⟩ := lookupIn_some hlook
  have := hr.ok.nonnull proc (by omega)
  omega

theorem inRange_of_checked (hok : StridedOk remStride count levels b.size)
    (h : (stridedTransfer kind b fill loc locStride rem remStride count levels).Checked env proc) :
    ∃ mreg, (stridedTransfer kind b fill loc locStride rem remStride count levels).InRange env proc
      mreg := by
  obtain ⟨mreg, hlook, hholds⟩ := h
  refine ⟨mreg, hlook, fun s hs => hholds s hs ?_⟩
  have hlen := userBlocks_length loc rem locStride remStride count levels
  obtain ⟨ds, hds⟩ := hok.head
  have hhead : ((stridedTransfer kind b fill loc locStride rem remStride count levels).segs.map
      Prod.snd).headD 0 = rem := by
    rw [show (stridedTransfer kind b fill loc locStride rem remStride count levels).segs.map
      Prod.snd = userBlocks rem remStride count levels from List.map_snd_zip hlen.ge]
    simp [userBlocks, hds]
  rw [hhead] at hlook
  obtain ⟨d, hd, heq⟩ := List.mem_map.mp (List.of_mem_zip hs).2
  have := hok.nonneg d hd
  have := pos_of_lookup hlook
  omega

theorem inRange_of_typed {atomic : Bool} {buf : Int} {type remType : Dtype}
    (hok : StridedOk remStride count levels b.size)
    (htype : stridedToDtype remStride count levels (.predefined b) = .ok remType)
    (hlook : gmrLookup env rem proc = .ok (some mreg))
    (hrun : gmrRmaTyped env kind atomic mreg buf 1 type rem 1 remType proc none h = (.ok (), acts)) :
    (stridedTransfer kind b fill loc locStride rem remStride count levels).InRange env proc mreg := by
  obtain ⟨win, g, hr⟩ := gmrLookup_reaches hlook
  obtain ⟨t, ht, hbase, hdisps⟩ := stridedToDtype_eq hok
  obtain rfl := Except.ok.inj (htype.symm.trans ht)
  obtain ⟨ds, hds⟩ := hok.head
  have hzero : 0 ∈ stridedBlocks remStride count levels := by rw [hds]; exact List.mem_cons_self
  have hn : 1 ≤ count 0 / b.size :=
    Nat.div_pos (Nat.le_of_dvd (hok.pos 0 (Nat.zero_le _)) hok.count_dvd) b.size_pos
  have hcover := (covers_blocks (pos_of_lookup hlook).ne' hn (by rw [hbase]; exact hdisps) hzero
    hok.nonneg).mp (gmrRmaTyped_eq_ok hr hrun).1
  rw [hbase] at hcover
  exact (stridedTransfer_inRange hok.level_pos).mpr ⟨hlook, hcover⟩

variable {src dst : Int} {srcStride dstStride : Nat → Int}

theorem inRange_of_direct {atomic : Bool} {remType : Dtype} {p : Int × Dtype}
    {last : Gmr → Script Act Unit} (hok : StridedOk remStride count levels b.size)
    (htype : stridedToDtype remStride count levels (.predefined b) = .ok remType)
    (hrun : (do
      let r ← lift (gmrLookup env rem proc)
      let mreg ← lift (found r invalidShared)
      gmrRmaTyped env kind atomic mreg p.1 1 p.2 rem 1 remType proc none
      last mreg) h = (.ok (), acts)) :
    ∃ mreg, (stridedTransfer kind b fill loc locStride rem remStride count levels).InRange env proc
      mreg := by
  obtain ⟨r, hlook, hrest⟩ := lift_bind_eq_ok.mp hrun
  obtain ⟨mreg, hfound, hrest⟩ := lift_bind_eq_ok.mp hrest
  obtain ⟨_, a, a', hrma, -, rfl⟩ := bind_eq_ok.mp hrest
  obtain rfl := found_eq_ok.mp hfound
  exact ⟨mreg, inRange_of_typed hok htype hlook hrma⟩

theorem VecCall.checked_of_segments (v : VecCall) (ha : env.Allocs arena)
    (hm : env.cfg.iovMethod = .batched) (hpos : ∀ i ≤ levels, 1 ≤ count i)
    (hdvd : v.base.size ∣ count 0)
    (hp : (v.strided src srcStride dst dstStride count levels).Proper env proc arena)
    (hrun : (do
      let iov ← lift (stridedToIov src srcStride dst dstStride count levels)
      forEach (v.entry env proc) [iov]) h = (.ok (), acts)) :
    (v.strided src srcStride dst dstStride count levels).Checked env proc := by
  obtain ⟨iov, hiov, hnop, hbytes, htrans⟩ := stridedToIov_transfer src srcStride dst dstStride hpos
  rw [hiov, lift_ok_bind] at hrun
  rw [← htrans] at hp ⊢
  exact VecCall.entry_checked ha hm (hbytes ▸ hdvd) hp hnop (forEach_single hrun)

theorem inRange_parmciPutS (ha : env.Allocs arena) (hm : env.cfg.iovMethod = .batched)
    (hp : (putSTransfer src srcStride dst dstStride count levels).Proper env proc arena)
    (hsrc : StridedOk srcStride count levels 1) (hdst : StridedOk dstStride count levels 1)
    (hrun : parmciPutS env src srcStride dst dstStride count levels proc h = (.ok (), acts)) :
    ∃ mreg, (putSTransfer src srcStride dst dstStride count levels).InRange env proc mreg := by
  unfold parmciPutS at hrun
  split at hrun
  · obtain ⟨p, a, rest, -, hrest, rfl⟩ := bind_eq_ok.mp hrun
    obtain ⟨remType, htype, hrest⟩ := lift_bind_eq_ok.mp hrest
    exact inRange_of_direct hdst htype hrest
  · exact inRange_of_checked hdst
      (VecCall.checked_of_segments .put ha hm hsrc.pos (Nat.one_dvd _) hp hrun)

theorem inRange_parmciGetS (ha : env.Allocs arena) (hm : env.cfg.iovMethod = .batched)
    (hp : (getSTransfer src srcStride dst dstStride count levels).Proper env proc arena)
    (hsrc : StridedOk srcStride count levels 1)
    (hrun : parmciGetS env src srcStride dst dstStride count levels proc h = (.ok (), acts)) :
    ∃ mreg, (getSTransfer src srcStride dst dstStride count levels).InRange env proc mreg := by
  unfold parmciGetS at hrun
  split at hrun
  · obtain ⟨p, a, rest, -, hrest, rfl⟩ := bind_eq_ok.mp hrun
    obtain ⟨remType, htype, hrest⟩ := lift_bind_eq_ok.mp hrest
    exact inRange_of_direct hsrc htype hrest
  · exact inRange_of_checked hsrc
      (VecCall.checked_of_segments .get ha hm hsrc.pos (Nat.one_dvd _) hp hrun)

theorem inRange_parmciAccS (ha : env.Allocs arena) (hm : env.cfg.iovMethod = .batched)
    {scale : Scale}
    (hp : (accSTransfer scale src srcStride dst dstStride count levels).Proper env proc arena)
    (hsrc : StridedOk srcStride count levels scale.base.size)
    (hdst : StridedOk dstStride count levels scale.base.size)
    (hrun : parmciAccS env scale src srcStride dst dstStride count levels proc h = (.ok (), acts)) :
    ∃ mreg, (accSTransfer scale src srcStride dst dstStride count levels).InRange env proc mreg := by
  unfold parmciAccS at hrun
  split at hrun
  · obtain ⟨p, a, rest, -, hrest, rfl⟩ := bind_eq_ok.mp hrun
    obtain ⟨remType, htype, hrest⟩ := lift_bind_eq_ok.mp hrest
    obtain ⟨-, hrest⟩ := require_bind_eq_ok.mp hrest
    exact inRange_of_direct hdst htype hrest
  · exact inRange_of_checked hdst
      (VecCall.checked_of_segments (.acc scale) ha hm hsrc.pos hsrc.count_dvd hp hrun)

end

section
variable {env : Env} {proc : Nat} {arena : Set Int} {c : Call}

theorem Call.IsStrided.bytes_ne_zero (hs : c.IsStrided) (hshape : c.Shaped) :
    ∀ t ∈ c.transfers, t.bytes ≠ 0 := by
  have hpos : ∀ {stride : Nat → Int} {count : Nat → Nat} {levels k : Nat},
      StridedOk stride count levels k → count 0 / k * k ≠ 0 := fun hok => by
    rw [Nat.div_mul_cancel hok.count_dvd]
    exact Nat.ne_of_gt (hok.pos 0 (Nat.zero_le _))
  cases c with
  | putS | getS => exact List.forall_mem_singleton.mpr (hpos hshape.1)
  | accS => exact List.forall_mem_singleton.mpr (hpos hshape.2.1)
  | _ => exact hs.elim

theorem Call.returns_strided (hs : c.IsStrided) (hshape : c.Shaped) (ha : env.Allocs arena)
    (hm : env.cfg.iovMethod = .batched) (hp : ∀ t ∈ c.transfers, t.Proper env proc arena)
    (h : List Act) :
    (c.run env proc).Returns h ↔ ∀ t ∈ c.transfers, ∃ mreg, t.InRange env proc mreg := by
  constructor
  · rintro ⟨_, hok⟩ t ht
    have hp := hp t ht
    cases c with
    | putS src srcStride dst dstStride count levels =>
      obtain rfl := List.mem_singleton.mp ht
      exact inRange_parmciPutS ha hm hp hshape.1 hshape.2 (Prod.ext hok rfl)
    | getS src srcStride dst dstStride count levels =>
      obtain rfl := List.mem_singleton.mp ht
      exact inRange_parmciGetS ha hm hp hshape.1 (Prod.ext hok rfl)
    | accS scale src srcStride dst dstStride count levels =>
      obtain rfl := List.mem_singleton.mp ht
      exact inRange_parmciAccS ha hm hp hshape.2.1 hshape.2.2 (Prod.ext hok rfl)
    | _ => exact hs.elim
  · intro hr
    refine Call.returns ha ⟨hshape, hp, hr⟩ h
      (Call.feasible_of_not_usesDatatypes ?_ (hs.bytes_ne_zero hshape))
    rintro (huse | huse) <;> cases hm.symm.trans huse

theorem Call.IsStrided.one (hs : c.IsStrided) : ∃ t, c.transfers = [t] := by
  cases c with
  | putS | getS | accS => exact ⟨_, rfl⟩
  | _ => exact hs.elim

/-- Subarray types and segments: both ways return or none does, and the memory after
them is the same. -/
theorem strided_methods_agree (hs : c.IsStrided) (hshape : c.Shaped) (ha : env.Allocs arena)
    (hpl : ∀ t ∈ c.transfers, t.Placed env proc arena) (h h' : List Act) :
    ((c.run (env.strided .direct) proc).Returns h ↔ (c.run (env.strided .iov) proc).Returns h') ∧
    ∀ acts acts', c.run (env.strided .direct) proc h = (.ok (), acts) →
      c.run (env.strided .iov) proc h' = (.ok (), acts') → ∀ m m' m'',
        Completed env.me acts m m' → Completed env.me acts' m m'' →
          Set.EqOn m' m'' (scratch env.me arena)ᶜ := by
  have hp := Call.proper_of_placed hs hshape hpl
  have hret : ∀ method h, (c.run (env.strided method) proc).Returns h ↔
      ∀ t ∈ c.transfers, ∃ mreg, t.InRange env proc mreg := by
    intro method h
    rw [Call.returns_strided hs hshape ha.strided rfl (fun t ht => (hp t ht).strided) h]
    simp only [Transfer.inRange_strided]
  refine ⟨(hret _ _).trans (hret _ _).symm, fun acts acts' hrun hrun' m m' m'' hdone hdone' => ?_⟩
  have hcorrect : ∀ method h, (c.run (env.strided method) proc).Returns h →
      c.Correct (env.strided method) proc arena := fun method h hr =>
    ⟨hshape, fun t ht => (hp t ht).strided, fun t ht => by
      simpa only [Transfer.inRange_strided] using (hret method h).mp hr t ht⟩
  have hcarry := Call.carries ha.strided (hcorrect _ _ (returns_of_ok hrun)) hrun
  have hcarry' := Call.carries ha.strided (hcorrect _ _ (returns_of_ok hrun')) hrun'
  obtain ⟨t, ht⟩ := hs.one
  rw [ht] at hcarry hcarry'
  exact (hcarry.completed (List.pairwise_singleton _ _) hdone).trans
    (hcarry'.completed (List.pairwise_singleton _ _) hdone').symm

end

-- ------------------------------
-- Two blocks of 8 bytes
-- ------------------------------

def pairStrided : Call :=
  .putS 64 (fun _ => 16) 8192 (fun _ => 24) (fun i => if i = 0 then 8 else 2) 1

theorem pairStrided_transfers : pairStrided.transfers =
    [⟨.put, .byte, 8, id, true, [(64, 8192), (80, 8216)]⟩] := rfl

theorem pairStrided_shaped : pairStrided.Shaped := by
  have hok : ∀ s : Int, 8 ≤ s → StridedOk (fun _ => s) (fun i => if i = 0 then 8 else 2) 1 1 := by
    intro s hs
    refine ⟨fun i _ => ?_, Nat.one_dvd _, fun _ => Int.one_dvd _, fun _ => hs, fun i hi => ?_,
      fun i hi => ?_⟩
    · split <;> decide
    · omega
    · omega
  exact ⟨hok 16 (by decide), hok 24 (by decide)⟩

theorem pairStrided_placed :
    ∀ t ∈ pairStrided.transfers, t.Placed (pairEnv defaultState 0 0) 1 highArena := by
  rw [pairStrided_transfers]
  refine List.forall_mem_singleton.mpr ?_
  have hp : Transfer.Proper (pairEnv defaultState 0 0) 1 highArena
      ⟨.put, .byte, 8, id, true, [(64, 8192), (80, 8216)]⟩ := remote_proper (show 0 ≠ 1 by decide)
    (.inr rfl) (List.cons_ne_nil _ _)
    (List.forall_mem_cons.mpr ⟨show (0 : Int) < 64 ∧ (64 : Int) < 2 ^ 20 ∧ (64 : Int) + 8 ≤ 2 ^ 20
      by decide, List.forall_mem_singleton.mpr (show (0 : Int) < 80 ∧ (80 : Int) < 2 ^ 20 ∧
        (80 : Int) + 8 ≤ 2 ^ 20 by decide)⟩)
    (List.pairwise_pair.mpr (block_disjoint fun _ => .inl (show (8192 : Int) + 8 ≤ 8216 by decide)))
    (fun _ h => h) fun _ => rfl
  exact ⟨hp.nonnull, hp.start, hp.user, hp.outside, fun s hs s' hs' =>
    hp.spread.sources _ (List.mem_map_of_mem hs) _ (List.mem_map_of_mem hs')⟩

theorem strided_methods_agree_pairStrided :
    ∃ acts acts',
      pairStrided.run ((pairEnv defaultState 0 0).strided .direct) 1 [] = (.ok (), acts) ∧
      pairStrided.run ((pairEnv defaultState 0 0).strided .iov) 1 [] = (.ok (), acts') ∧
      ∀ m m' m'', Completed 0 acts m m' → Completed 0 acts' m m'' →
        Set.EqOn m' m'' (scratch 0 highArena)ᶜ := by
  obtain ⟨hiff, hall⟩ := strided_methods_agree (c := pairStrided) trivial pairStrided_shaped
    (pairEnv_allocs defaultState 0 0) pairStrided_placed [] []
  have hdirect : (pairStrided.run ((pairEnv defaultState 0 0).strided .direct) 1).Returns [] :=
    ⟨(), by decide +kernel⟩
  obtain ⟨_, hok⟩ := hdirect
  obtain ⟨_, hok'⟩ := hiff.mp ⟨_, hok⟩
  exact ⟨_, _, Prod.ext hok rfl, Prod.ext hok' rfl, hall _ _ (Prod.ext hok rfl) (Prod.ext hok' rfl)⟩

end ArmciMpi
