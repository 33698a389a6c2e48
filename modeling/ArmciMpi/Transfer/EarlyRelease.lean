import ArmciMpi.Runtime.Fence
import ArmciMpi.Transfer.Release

/-!
# The accumulate that releases its source too early

A scaled accumulate of vectors with unguarded buffers issues its operations on
one temporary buffer, and releases the buffer without completing them. Every
entry that is not passed over and does not go the conservative way does this
(`accVEntry_early`), so the condition of `NbCall.Settled` is exact:
`release_safe_iff`. `nbAccV_releases_early` is a call in the default
configuration that does it.
-/

namespace ArmciMpi

open Lib Script

section
variable {env : Env} {mreg : Gmr} {proc : Nat} {win : Win} {g : Nat}

-- ------------------------------
-- Operations on the first segment
-- ------------------------------

def UsesAt (p : Int) (acts : List Act) : Prop := ∃ op ∈ issued acts, p ∈ op.originElems

theorem UsesAt.append_left {p : Int} {acts : List Act} (h : UsesAt p acts) (acts' : List Act) :
    UsesAt p (acts ++ acts') := by
  obtain ⟨op, hop, hp⟩ := h
  exact ⟨op, by rw [issued_append]; exact List.mem_append_left _ hop, hp⟩

theorem zero_mem_elems {count : Nat} (hc : 0 < count) {t : Dtype} (ht : (0 : Int) ∈ t.disps) :
    (0 : Int) ∈ t.elems count :=
  List.mem_flatMap.mpr ⟨0, List.mem_range.mpr hc, List.mem_map.mpr ⟨0, ht, by simp⟩⟩

theorem usesAt_rma {op : Rma} {acts : List Act} (h : (0 : Int) ∈ op.originType.elems op.originCount) :
    UsesAt op.origin (.rma op :: acts) :=
  ⟨op, by simp [issued, Act.issues], List.mem_map.mpr ⟨0, h, by simp⟩⟩

theorem usesAt_gmrSegment (hr : Reaches env mreg proc win g) {src dst : Int} {elemCount : Nat}
    {b : BaseType} {handle : Option Nat} (hn : 0 < elemCount) {h acts : List Act}
    (hrun : gmrSegment env .acc mreg src dst elemCount (.predefined b) proc handle h =
      (.ok (), acts)) : UsesAt src acts := by
  obtain ⟨-, hrun⟩ := require_bind_eq_ok.mp hrun
  rw [(gmrRmaTyped_eq_ok hr hrun).2]
  exact usesAt_rma (zero_mem_elems hn List.mem_cons_self)

theorem emits_batchedLoop (hr : Reaches env mreg proc win g) (op : RmaKind) (elemCount : Nat)
    (type : Dtype) (consrv : Bool) (handle : Option Nat) (i : Nat) (flushLocal : Bool)
    (segs : List (Int × Int)) :
    Emits (Act.IssuesTo win g) (batchedLoop env op mreg elemCount type proc consrv false handle i
      flushLocal segs) := by
  induction segs generalizing i flushLocal with
  | nil => exact emits_pure _
  | cons seg segs ih =>
    exact emits_ite (fun hc => by simp at hc) fun _ =>
      emits_bind (emits_gmrSegment hr _ _ _ _ _ _) fun _ => ih _ _

/-- Without blocking, the operations go out and none is completed; the first is
on the first segment. -/
structure LeavesOpen (p : Int) (acts : List Act) : Prop where
  uses : UsesAt p acts
  issues : ∃ win g, ∀ a ∈ acts, a.IssuesTo win g

theorem leavesOpen_iovOpBatched {src : Int} {srcs : List Int} {dst : Int} {dsts : List Int}
    {elemCount : Nat} {b : BaseType} {consrv : Bool} {handle : Option Nat} (hn : 0 < elemCount)
    {h acts : List Act}
    (hrun : iovOpBatched env .acc (src :: srcs) (dst :: dsts) elemCount (.predefined b) proc consrv
      false handle h = (.ok (), acts)) : LeavesOpen src acts := by
  obtain ⟨m, hm, hrun⟩ := lift_bind_eq_ok.mp hrun
  obtain ⟨mreg, hf, hrun⟩ := lift_bind_eq_ok.mp hrun
  obtain ⟨win, g, hr⟩ := reaches_of_found hm hf
  obtain ⟨fl, a, b', hloop, hend, rfl⟩ := bind_eq_ok.mp hrun
  have hnil : b' = [] := by simpa using hend
  subst hnil
  rw [List.append_nil]
  refine ⟨?_, win, g, (emits_batchedLoop hr _ _ _ _ _ _ _ _).mem hloop⟩
  simp only [List.zip_cons_cons, batchedLoop, Bool.false_eq_true, false_and, if_false] at hloop
  obtain ⟨u, a₁, a₂, hseg, -, rfl⟩ := bind_eq_ok.mp hloop
  exact (usesAt_gmrSegment hr hn hseg).append_left a₂

theorem lowest_of_le {l : List Int} {base : Int} (hbase : l.headD 0 = base)
    (hle : ∀ a ∈ l, base ≤ a) : lowest l = base := by
  rw [lowest, hbase]
  clear hbase
  induction l with
  | nil => rfl
  | cons a l ih =>
    have ha := hle a List.mem_cons_self
    rw [List.foldl_cons, if_neg (by omega)]
    exact ih fun b hb => hle b (List.mem_cons_of_mem a hb)

theorem usesAt_gmrChunk (hr : Reaches env mreg proc win g) {baseLoc : Int} {elemCount : Nat}
    {b : BaseType} {handle : Option Nat} (hn : 0 < elemCount) {d : Int × Int} (hd : d.1 = 0)
    {ds : List (Int × Int)} {h acts : List Act}
    (hrun : gmrChunk env .acc mreg baseLoc elemCount (.predefined b) proc handle (d :: ds) h =
      (.ok (), acts)) : UsesAt baseLoc acts := by
  rw [(gmrRmaTyped_eq_ok hr hrun).2]
  refine usesAt_rma (zero_mem_elems Nat.one_pos ?_)
  refine List.mem_flatMap.mpr ⟨0, by simp [hd], List.mem_flatMap.mpr ⟨0, by simpa using hn, ?_⟩⟩
  simp [Dtype.predefined]

theorem leavesOpen_iovOpDatatype {src : Int} {srcs : List Int} {dst : Int} {dsts : List Int}
    {elemCount : Nat} {b : BaseType} {handle : Option Nat} (hn : 0 < elemCount)
    (hle : ∀ a ∈ srcs, src ≤ a) {h acts : List Act}
    (hrun : iovOpDatatype env .acc (src :: srcs) (dst :: dsts) elemCount (.predefined b) proc false
      handle h = (.ok (), acts)) : LeavesOpen src acts := by
  obtain ⟨m, hm, hrun⟩ := lift_bind_eq_ok.mp hrun
  obtain ⟨mreg, hf, hrun⟩ := lift_bind_eq_ok.mp hrun
  obtain ⟨win, g, hr⟩ := reaches_of_found hm hf
  obtain ⟨disps, hdisps, hrun⟩ := lift_bind_eq_ok.mp hrun
  obtain ⟨u, a, b', hloop, hend, rfl⟩ := bind_eq_ok.mp hrun
  have hnil : b' = [] := by simpa using hend
  subst hnil
  rw [List.append_nil]
  have hlow : lowest (src :: srcs) = src :=
    lowest_of_le rfl fun a ha => (List.mem_cons.mp ha).elim (fun he => he ▸ Int.le_refl _) (hle a)
  refine ⟨?_, win, g, Emits.mem (emits_forEach fun ds _ =>
    emits_gmrChunk hr .acc _ elemCount (.predefined b) handle ds) hloop⟩
  obtain ⟨d, ds, hd, -, rfl⟩ := mapM_cons_eq_ok.mp hdisps
  have hzero : d.1 = 0 := by
    rw [(segmentDisps_eq_ok.mp hd).2]
    simp only [localOf, hlow, Int.sub_self, Int.zero_tdiv]
    rfl
  obtain ⟨n, hn'⟩ := Nat.exists_eq_add_of_lt (chunkSize_pos env (Nat.succ_pos ds.length))
  rw [List.length_cons, hn', Nat.zero_add, chunks_cons] at hloop
  obtain ⟨u, a₁, a₂, hchunk, -, rfl⟩ := bind_eq_ok.mp hloop
  exact hlow ▸ (usesAt_gmrChunk hr hn hzero hchunk).append_left a₂

theorem leavesOpen_iovOpDispatch {src : Int} {srcs : List Int} {dst : Int} {dsts : List Int}
    {size : Nat} {b : BaseType} {overlapping sameAlloc : Bool} {handle : Option Nat}
    (hsize : 0 < size) (hle : ∀ a ∈ srcs, src ≤ a)
    (hway : ¬ (overlapping = true ∨ (!sameAlloc) = true ∨ env.cfg.iovMethod = .consrv))
    {h acts : List Act}
    (hrun : iovOpDispatch env .acc (src :: srcs) (dst :: dsts) size (.predefined b) overlapping
      sameAlloc proc false handle h = (.ok (), acts)) : LeavesOpen src acts := by
  obtain ⟨hmod, hrun⟩ := require_bind_eq_ok.mp hrun
  have hn : 0 < size / (Dtype.predefined b).size :=
    Nat.div_pos (Nat.le_of_dvd hsize (Nat.dvd_of_mod_eq_zero hmod))
      (Nat.mul_pos b.size_pos Nat.one_pos)
  rw [if_neg hway] at hrun
  cases hm : env.cfg.iovMethod with
  | direct | auto =>
    rw [hm] at hrun
    exact leavesOpen_iovOpDatatype hn hle hrun
  | batched =>
    rw [hm] at hrun
    exact leavesOpen_iovOpBatched hn hrun
  | consrv => exact absurd (.inr (.inr hm)) hway

-- ------------------------------
-- The early release
-- ------------------------------

/-- A buffer allocated among the actions is released while an operation on it is
incomplete at the origin. -/
def ReleasesEarly (acts : List Act) : Prop :=
  ∃ pre p post n op, acts = pre ++ .freeMem p :: post ∧ .allocMem p n ∈ pre ∧
    op ∈ pending .origin pre ∧ op.Touches p n

theorem ReleasesEarly.not_safe {acts : List Act} (h : ReleasesEarly acts) : ¬ SafeRelease acts := by
  obtain ⟨pre, p, post, n, op, hacts, halloc, hop, ht⟩ := h
  exact fun hsafe => hsafe pre p post hacts n halloc op hop ht

theorem ReleasesEarly.context {acts : List Act} (h : ReleasesEarly acts) (before after : List Act) :
    ReleasesEarly (before ++ acts ++ after) := by
  obtain ⟨pre, p, post, n, op, rfl, halloc, hop, ht⟩ := h
  exact ⟨before ++ pre, p, post ++ after, n, op, by simp, List.mem_append_right _ halloc,
    mem_pending_suffix hop before, ht⟩

theorem bufPrepareAccVec_scaled {origBufs : List Int} {size : Nat} {scale : Scale}
    (hs : scale.accIsScaled = true) {h acts : List Act} {newBufs : List Int} {contig : Int}
    (hrun : bufPrepareAccVec env origBufs size scale h = (.ok (newBufs, contig), acts)) :
    contig ≠ 0 ∧ newBufs = contigBufs contig origBufs.length size ∧
      .allocMem contig (origBufs.length * size) ∈ acts := by
  rw [bufPrepareAccVec, if_pos hs] at hrun
  obtain ⟨p, a₁, rest, halloc, hrest, rfl⟩ := bind_eq_ok.mp hrun
  obtain ⟨⟨-, hp⟩, rfl⟩ := allocMem_eq_ok halloc
  obtain ⟨_, a₂, a₃, -, hend, rfl⟩ := bind_eq_ok.mp hrest
  cases hend
  exact ⟨hp, rfl, List.mem_append_left _ List.mem_cons_self⟩

theorem contigBufs_succ (contig : Int) (count size : Nat) :
    contigBufs contig (count + 1) size = contig ::
      (List.range count).map fun (i : Nat) => contig + (i + 1) * size := by
  simp [contigBufs, List.range_succ_eq_map]

/-- The entry allocates the scaled source, issues operations on it and releases
it. -/
theorem accVEntry_early {scale : Scale} {handle : Option Nat} {iov : Giov}
    (hs : scale.accIsScaled = true) (hnop : ¬ iov.Nop) (hway : ¬ Conservative env proc iov)
    {h acts : List Act}
    (hrun : accVEntry env scale proc false handle iov h = (.ok (), acts)) : ReleasesEarly acts := by
  unfold accVEntry at hrun
  rw [if_neg hnop] at hrun
  obtain ⟨ov, hov, hrun⟩ := lift_bind_eq_ok.mp hrun
  obtain ⟨same, hsame, hrun⟩ := lift_bind_eq_ok.mp hrun
  obtain ⟨⟨srcBuf, contig⟩, a₁, rest, hprep, hrest, rfl⟩ := bind_eq_ok.mp hrun
  obtain ⟨_, a₂, a₃, hop, hfree, rfl⟩ := bind_eq_ok.mp hrest
  obtain ⟨hp, rfl, halloc⟩ := bufPrepareAccVec_scaled hs hprep
  rw [bufFinishAccVec, if_pos hp] at hfree
  cases hfree
  -- there is at least one segment, and no segment of the buffer lies below the first
  obtain ⟨hlen, hbytes⟩ : iov.ptrArrayLen ≠ 0 ∧ iov.bytes ≠ 0 := not_or.mp hnop
  obtain ⟨k, hk⟩ : ∃ k, iov.srcPtrArray.length = k + 1 := Nat.exists_eq_succ_of_ne_zero hlen
  obtain ⟨dst, dsts, hdst⟩ := List.exists_cons_of_length_eq_add_one (iov.len_eq.symm.trans hk)
  rw [hk, contigBufs_succ, hdst] at hop
  have hopen := leavesOpen_iovOpDispatch (Nat.pos_of_ne_zero hbytes) (fun a ha => ?_) (fun hc => ?_)
    hop
  · obtain ⟨op, hissued, hmem⟩ := hopen.uses
    obtain ⟨win, g, hissues⟩ := hopen.issues
    refine ⟨a₁ ++ a₂, contig, [], _, op, by simp, List.mem_append_left _ halloc,
      mem_pending_append (fun a ha => (hissues a ha).completes .origin) (.inr hissued),
      contig, hmem, ?_, ?_⟩
    · have hpos : 0 < iov.srcPtrArray.length * iov.bytes :=
        Nat.mul_pos (Nat.pos_of_ne_zero hlen) (Nat.pos_of_ne_zero hbytes)
      omega
    · have hpos := op.originType.base.size_pos
      simp only [Dtype.elemSize]
      omega
  · obtain ⟨i, -, rfl⟩ := List.mem_map.mp ha
    have hpos : (0 : Int) ≤ (i + 1) * iov.bytes := Int.mul_nonneg (by omega) (by omega)
    omega
  · refine hway ?_
    rcases hc with rfl | hc | hc
    · exact .inl hov
    · exact .inr (.inl (by simpa [hsame] using hc))
    · exact .inr (.inr hc)

theorem nbAccV_early {scale : Scale} {handle : Option Nat} {iovs : List Giov}
    (h : ¬ VectorSettled env proc scale iovs) {done acts : List Act}
    (hrun : parmciNbAccV env scale iovs proc handle done = (.ok (), acts)) :
    ReleasesEarly acts := by
  obtain ⟨hcopy, hs, hentry⟩ : env.cfg.shrBufMethod ≠ .copy ∧ scale.accIsScaled = true ∧
      ∃ iov ∈ iovs, ¬ iov.Nop ∧ ¬ Conservative env proc iov := by
    simpa [VectorSettled] using h
  obtain ⟨iov, hiov, hnop, hway⟩ := hentry
  obtain ⟨before, after, rfl⟩ := List.append_of_mem hiov
  have hblock : nbBlocking env = false := by
    cases hm : env.cfg.shrBufMethod with
    | copy => exact absurd hm hcopy
    | noguard => simp [nbBlocking, hm]
  rw [parmciNbAccV, hblock] at hrun
  obtain ⟨_, a, b, hloop, -, rfl⟩ := bind_eq_ok.mp hrun
  obtain ⟨a₁, a₂, a₃, -, hentry, -, rfl⟩ := forEach_split hloop
  have hearly := (accVEntry_early hs hnop hway hentry).context a₁ (a₃ ++ b)
  rwa [← List.append_assoc] at hearly

theorem NbCall.early {call : NbCall} {handle : Option Nat} (h : ¬ call.Settled env proc)
    {done acts : List Act} (hrun : call.run env proc handle done = (.ok (), acts)) :
    ReleasesEarly acts := by
  cases call with
  | accV scale iovs => exact nbAccV_early h hrun
  | accS scale src ss dst ds count levels =>
    simp only [NbCall.Settled, not_or, not_forall] at h
    obtain ⟨hdirect, iov, hiov, hvec⟩ := h
    simp only [NbCall.run, parmciNbAccS, if_neg hdirect] at hrun
    obtain ⟨iov', hiov', hrun⟩ := lift_bind_eq_ok.mp hrun
    cases hiov.symm.trans hiov'
    obtain ⟨_, a, b, hacc, -, rfl⟩ := bind_eq_ok.mp hrun
    exact (nbAccV_early hvec hacc).context [] b
  | _ => exact absurd trivial h

/-- A nonblocking operation that meets the condition releases no buffer under an
incomplete operation; one that returns without meeting it does. -/
theorem release_safe_iff (env : Env) (proc : Nat) (handle : Option Nat) (call : NbCall)
    (done : List Act) :
    (call.Settled env proc → SafeRelease (call.run env proc handle done).2) ∧
    ((call.run env proc handle).Returns done →
      (SafeRelease (call.run env proc handle done).2 ↔ call.Settled env proc)) := by
  have hsafe : call.Settled env proc → SafeRelease (call.run env proc handle done).2 :=
    fun h => Releases.safe (h.safely handle) rfl done
  refine ⟨hsafe, fun ⟨u, hret⟩ => ⟨fun hrel => ?_, hsafe⟩⟩
  by_contra hnot
  exact (NbCall.early hnot (Prod.ext hret rfl)).not_safe hrel

-- ------------------------------
-- A scaled accumulate in the default configuration
-- ------------------------------

def scaleEnv : Env := { selfRegionEnv with allocMem := fun _ _ => 8192 }

def scaledVector : NbCall := .accV (.int 3) [⟨[16], [4096], 4, rfl⟩]

/-- The scaled source is released while the accumulate that reads it is
incomplete. -/
theorem nbAccV_releases_early :
    (scaledVector.run scaleEnv 0 none).Returns [] ∧
      ¬ SafeRelease (scaledVector.run scaleEnv 0 none []).2 := by
  have hret : (scaledVector.run scaleEnv 0 none).Returns [] := ⟨(), by rfl⟩
  have hway : ¬ Conservative scaleEnv 0 ⟨[16], [4096], 4, rfl⟩ := by
    rintro (h | h | h) <;> cases h
  have hnot : ¬ scaledVector.Settled scaleEnv 0 := by
    rintro (h | h | h)
    · cases h
    · cases h
    · exact hway (h _ List.mem_cons_self (by decide))
  exact ⟨hret, (NbCall.early hnot (Prod.ext hret.choose_spec rfl)).not_safe⟩

end

end ArmciMpi
