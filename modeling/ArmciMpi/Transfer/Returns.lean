import ArmciMpi.Transfer.Single
import ArmciMpi.Transfer.StridedCalls
import ArmciMpi.Transfer.VecCall

/-!
# Calls return

A call whose transfers are proper and in range returns: no assertion of the
code fails and no lookup goes wrong. The exception is a vector sent by
datatypes, whose distances are `int`s: there the slice and the distances of the
local buffers, those of the caller and the temporary ones, have to be small and
multiples of the element size (`Transfer.Near`).
-/

namespace ArmciMpi

open Lib Script VecCall

def GlobalState.UsesDatatypes (cfg : GlobalState) : Prop :=
  cfg.iovMethod = .direct ∨ cfg.iovMethod = .auto

/-- A local segment of the transfer, or an address in a buffer that the actions allocate. -/
def Transfer.Place (acts : List Act) (t : Transfer) (a : Int) : Prop :=
  a ∈ t.segs.map Prod.fst ∨ InTemp acts a

/-- What sending by datatypes asks of the transfer and of the buffers that the actions of the
call allocate: the slice is small, and the addresses are aligned and not far apart. -/
structure Transfer.Near (proc : Nat) (mreg : Gmr) (acts : List Act) (t : Transfer) : Prop where
  size : (mreg.slice proc).size ≤ intMax
  loc_dvd : ∀ s ∈ t.segs, (t.base.size : Int) ∣ s.1
  rem_dvd : ∀ s ∈ t.segs, (t.base.size : Int) ∣ s.2 - (mreg.slice proc).base
  alloc_dvd : ∀ p ∈ allocs acts, (t.base.size : Int) ∣ p
  span : ∀ a b, t.Place acts a → t.Place acts b → (a - b) / t.base.size ≤ intMax

theorem Transfer.Near.mono {proc : Nat} {mreg : Gmr} {acts acts' : List Act} {t : Transfer}
    (hn : t.Near proc mreg acts') (hsub : acts ⊆ acts') : t.Near proc mreg acts where
  size := hn.size
  loc_dvd := hn.loc_dvd
  rem_dvd := hn.rem_dvd
  alloc_dvd := fun p hp => by
    obtain ⟨a, ha, hmem⟩ := List.mem_flatMap.mp hp
    exact hn.alloc_dvd p (List.mem_flatMap.mpr ⟨a, hsub ha, hmem⟩)
  span := by
    have hplace : ∀ a, t.Place acts a → t.Place acts' a := fun a ha => ha.imp id fun hin => by
      obtain ⟨p, n, hmem, hrest⟩ := hin
      exact ⟨p, n, hsub hmem, hrest⟩
    exact fun a b ha hb => hn.span a b (hplace a ha) (hplace b hb)

theorem lowest_mem {l : List Int} (hl : l ≠ []) : lowest l ∈ l := by
  have hfold : ∀ (l : List Int) (base : Int),
      l.foldl (fun base addr => if addr < base then addr else base) base = base ∨
        l.foldl (fun base addr => if addr < base then addr else base) base ∈ l := by
    intro l
    induction l with
    | nil => exact fun base => .inl rfl
    | cons a l ih =>
      intro base
      rcases ih (if a < base then a else base) with heq | hmem
      · rw [List.foldl_cons, heq]
        split
        · exact .inr List.mem_cons_self
        · exact .inl rfl
      · exact .inr (List.mem_cons_of_mem a hmem)
  obtain ⟨a, l, rfl⟩ := List.exists_cons_of_ne_nil hl
  rcases hfold (a :: l) a with heq | hmem
  · rw [show lowest (a :: l) = a from heq]
    exact List.mem_cons_self
  · exact hmem

theorem Transfer.InRange.proc_lt {env : Env} {proc : Nat} {mreg : Gmr} {t : Transfer}
    (hr : t.InRange env proc mreg) : proc < env.world.size := by
  obtain ⟨win, g, hreach⟩ := gmrLookup_reaches hr.region
  exact hreach.ok.group.1 proc (Comm.rankOf_isSome.mp (by simp [hreach.rank]))

section
variable {env : Env} {proc : Nat} {arena : Set Int} {mreg : Gmr} {t : Transfer} {k : Nat}
  {users bufs rems : List Int} {handle : Option Nat} {acts : List Act}

-- ------------------------------
-- Entries of vectors
-- ------------------------------

theorem takesDatatypes_uses {overlapping sameAlloc : Bool}
    (h : TakesDatatypes env overlapping sameAlloc) : env.cfg.UsesDatatypes := by
  obtain ⟨hway, hbatched⟩ := h
  cases hm : env.cfg.iovMethod with
  | direct => exact .inl hm
  | auto => exact .inr hm
  | batched => exact absurd hm hbatched
  | consrv => exact absurd (.inr (.inr hm)) hway

theorem Transfer.dispatchOk (ha : env.Allocs arena) (hp : t.Proper env proc arena)
    (hr : t.InRange env proc mreg) (hnear : env.cfg.UsesDatatypes → t.Near proc mreg acts)
    (hsegs : t.segs = users.zip rems) (hb : bufs.length = users.length)
    (hlen : users.length = rems.length)
    (husable : ∀ b ∈ bufs, Usable arena t.base.size users acts b) (overlapping sameAlloc : Bool) :
    SegsOk env t.kind t.base (localOf t.kind bufs rems) (remoteOf t.kind bufs rems) t.count proc
        mreg ∧
      (TakesDatatypes env overlapping sameAlloc → (mreg.slice proc).size ≤ intMax) ∧
      (TakesDatatypes env overlapping sameAlloc →
        ∀ seg ∈ (localOf t.kind bufs rems).zip (remoteOf t.kind bufs rems),
          mreg.Aligned proc t.base.size (lowest (localOf t.kind (localOf t.kind bufs rems)
            (remoteOf t.kind bufs rems))) (orient t.kind seg)) := by
  have hasked : (mkSegs users bufs rems).map Seg.asked = t.segs := by
    rw [hsegs, mkSegs_asked hb hlen]
  have hfst : t.segs.map Prod.fst = users := hsegs ▸ List.map_fst_zip hlen.le
  have hbuf : ∀ s ∈ mkSegs users bufs rems, s.buf ≠ 0 := by
    intro s hs
    rcases husable s.buf (mem_mkSegs hb hlen hs).2 with hmem | ⟨hmem, -⟩
    · rw [← hfst] at hmem
      obtain ⟨s', hs', heq⟩ := List.mem_map.mp hmem
      exact heq ▸ hp.nonnull s' hs'
    · exact fun hzero => ha.null (hzero ▸ hmem)
  have hok := t.segsOk hp hr hasked hbuf
  rw [mkSegs_map_buf hb hlen, mkSegs_map_rem hb hlen] at hok
  refine ⟨hok, fun hway => (hnear (takesDatatypes_uses hway)).size, fun hway seg hseg => ?_⟩
  have hn := hnear (takesDatatypes_uses hway)
  have hmem := List.mem_map_of_mem (f := orient t.kind) hseg
  rw [map_orient_zip, ← mkSegs_sent hb hlen] at hmem
  obtain ⟨s, hs, heq⟩ := List.mem_map.mp hmem
  rw [← heq, localOf_swap]
  have hsbuf := (mem_mkSegs hb hlen hs).2
  have hlow := lowest_mem (List.ne_nil_of_mem hsbuf)
  have hdvd : ∀ b ∈ bufs, (t.base.size : Int) ∣ b := by
    intro b hmem
    rcases husable b hmem with hu | ⟨-, -, hu⟩
    · rw [← hfst] at hu
      obtain ⟨s', hs', heq⟩ := List.mem_map.mp hu
      exact heq ▸ hn.loc_dvd s' hs'
    · exact hu hn.alloc_dvd
  have hplace : ∀ b ∈ bufs, t.Place acts b := fun b hmem =>
    (husable b hmem).imp (fun hu => hfst ▸ hu) fun hu => hu.2.1
  exact ⟨Int.dvd_sub (hdvd _ hsbuf) (hdvd _ hlow), lowest_le hsbuf,
    hn.span _ _ (hplace _ hsbuf) (hplace _ hlow),
    hn.rem_dvd s.asked (hasked ▸ List.mem_map_of_mem hs)⟩

theorem Transfer.returns_dispatch (ha : env.Allocs arena) (hp : t.Proper env proc arena)
    (hr : t.InRange env proc mreg) (hnear : env.cfg.UsesDatatypes → t.Near proc mreg acts)
    (hsegs : t.segs = users.zip rems) (hb : bufs.length = users.length)
    (hlen : users.length = rems.length)
    (husable : ∀ b ∈ bufs, Usable arena t.base.size users acts b) (overlapping sameAlloc : Bool)
    (handle : Option Nat) (h : List Act) :
    (iovOpDispatch env t.kind (localOf t.kind bufs rems) (remoteOf t.kind bufs rems) t.bytes
      (.predefined t.base) overlapping sameAlloc proc true handle).Returns h := by
  obtain ⟨hok, hsize, halign⟩ := t.dispatchOk ha hp hr hnear hsegs hb hlen husable overlapping
    sameAlloc
  exact returns_iovOpDispatch hok hsize halign h

theorem addrs_apart (me : Nat) {size : Nat} {addrs : List Int}
    (h : addrs.Pairwise fun p q => Disjoint (block (me, p) size) (block (me, q) size)) :
    addrs.Pairwise fun p q : Int => p + size ≤ q ∨ q + size ≤ p := by
  refine h.imp fun {p q} hdisj => ?_
  by_contra hmeet
  rw [not_or, not_le, not_le] at hmeet
  have hp : (me, max p q) ∈ block (me, p) size := ⟨rfl, le_max_left p q, by
    show max p q < p + size; omega⟩
  have hq : (me, max p q) ∈ block (me, q) size := ⟨rfl, le_max_right p q, by
    show max p q < q + size; omega⟩
  exact hdisj.notMem_of_mem_left hp hq

variable {iov : Giov} {whole : Bool} {v : VecCall}

variable (whole) in
theorem VecCall.transfer_bytes (hdvd : v.base.size ∣ iov.bytes) :
    (v.transfer iov whole).bytes = iov.bytes := by
  cases v with
  | put | get | acc => exact Nat.div_mul_cancel hdvd

variable (iov whole) in
theorem VecCall.transfer_kind (v : VecCall) : (v.transfer iov whole).kind = v.kind := by
  cases v <;> rfl

variable (iov whole) in
theorem VecCall.transfer_base (v : VecCall) : (v.transfer iov whole).base = v.base := by
  cases v <;> rfl

variable (iov whole) in
theorem VecCall.transfer_segs (v : VecCall) :
    (v.transfer iov whole).segs = (v.locs iov).zip (v.rems iov) := by
  cases v <;> rfl

theorem VecCall.start (hp : (v.transfer iov whole).Proper env proc arena) :
    ∀ u ∈ v.locs iov, u ∉ arena := fun u hu =>
  (hp.users_outside (v.length_locs iov) (v.transfer_segs iov whole) rfl u hu).1

theorem VecCall.dst_apart (hdvd : v.base.size ∣ iov.bytes)
    (hp : (v.transfer iov whole).Proper env proc arena) :
    iov.dstPtrArray.Pairwise fun p q : Int => p + iov.bytes ≤ q ∨ q + iov.bytes ≤ p := by
  have htargets := List.pairwise_map.mp hp.spread.targets
  rw [VecCall.transfer_bytes whole hdvd] at htargets
  cases v with
  | put | acc =>
    have hsnd : (iov.srcPtrArray.zip iov.dstPtrArray).map Prod.snd = iov.dstPtrArray :=
      List.map_snd_zip iov.len_eq.ge
    rw [← hsnd]
    exact addrs_apart proc (List.pairwise_map.mpr htargets)
  | get =>
    have hfst : (iov.dstPtrArray.zip iov.srcPtrArray).map Prod.fst = iov.dstPtrArray :=
      List.map_fst_zip iov.len_eq.ge
    rw [← hfst]
    exact addrs_apart env.me (List.pairwise_map.mpr htargets)

theorem VecCall.returns (ha : env.Allocs arena) (hdvd : v.base.size ∣ iov.bytes)
    (hp : (v.transfer iov whole).Proper env proc arena)
    (hr : (v.transfer iov whole).InRange env proc mreg)
    (hnop : ¬ iov.Nop) (h : List Act) (hnear : env.cfg.UsesDatatypes →
      (v.transfer iov whole).Near proc mreg (v.entry env proc iov h).2) :
    (v.entry env proc iov).Returns h := by
  have hpos : 0 < iov.bytes := Nat.pos_of_ne_zero fun h0 => hnop (.inr h0)
  have hstart := VecCall.start hp
  obtain ⟨same, hsame⟩ := iovCheckSameAllocation_returns env (v.rems iov) hr.proc_lt
  refine returns_entry ha hnop hstart hdvd
    (iovCheckOverlap_apart env hpos (VecCall.dst_apart hdvd hp)) hsame fun bufs a hprep hsub => ?_
  obtain ⟨hb, husable, -⟩ := prepare_eq_ok ha hnop hstart hprep
  have hdisp := Transfer.returns_dispatch ha hp hr (fun huse => (hnear huse).mono hsub)
    (v.transfer_segs iov whole) hb (v.length_locs iov) (by rw [v.transfer_base]; exact husable hdvd)
    false same none (h ++ a)
  rw [v.transfer_kind, v.transfer_base, VecCall.transfer_bytes whole hdvd] at hdisp
  exact hdisp

-- ------------------------------
-- Contiguous calls
-- ------------------------------

variable {src dst : Int}

theorem guardLookup_returns (env : Env) (buf : Int) : ∃ r, guardLookup env buf = .ok r := by
  unfold guardLookup
  split
  · exact lookup_me env buf
  · exact ⟨none, rfl⟩

theorem returns_segment (kind : RmaKind) {b : BaseType} {n : Nat} (hfit : kind.Fits b)
    (hloc : localOf kind src dst ≠ 0)
    (hlook : gmrLookup env (remoteOf kind src dst) proc = .ok (some mreg))
    (hrem : mreg.Holds proc (remoteOf kind src dst) (n * b.size)) (h : List Act) :
    (gmrSegment env kind mreg src dst n (.predefined b) proc handle).Returns h := by
  obtain ⟨win, g, hreach⟩ := gmrLookup_reaches hlook
  obtain ⟨a, ha, -⟩ := sends_gmrSegment hreach hfit hloc hrem handle h
  exact returns_of_ok ha

theorem returns_gmrFlush {ptr : Int} (hlook : gmrLookup env ptr proc = .ok (some mreg))
    (localOnly : Bool) (h : List Act) : (gmrFlush env mreg proc localOnly).Returns h := by
  obtain ⟨win, g, hreach⟩ := gmrLookup_reaches hlook
  exact returns_of_ok (gmrFlush_ok hreach.ok hreach.rank localOnly h)

theorem returns_parmciPut {size : Nat} {h : List Act} (hcan : env.allocMem h size ≠ 0)
    (hp : (putTransfer src dst size).Proper env proc arena)
    (hr : (putTransfer src dst size).InRange env proc mreg) :
    (parmciPut env src dst size proc).Returns h := by
  have hmem : (src, dst) ∈ (putTransfer src dst size).segs := List.mem_cons_self
  have hlook : gmrLookup env dst proc = .ok (some mreg) := hr.region
  obtain ⟨r, hguard⟩ := guardLookup_returns env src
  have hput : ∀ buf, buf ≠ 0 → ∀ h, (gmrPut env mreg buf dst size proc none).Returns h :=
    fun buf hbuf => returns_segment .put (b := .byte) (.inr rfl) hbuf hlook
      (hr.holds _ hmem)
  rw [parmciPut, hlook, lift_ok_bind, hguard, lift_ok_bind, found, lift_ok_bind]
  split
  · exact ⟨(), rfl⟩
  · split
    · exact returns_bind (hput src (hp.nonnull _ hmem) h) fun _ _ _ => returns_gmrFlush hlook _ _
    · refine returns_bind (returns_of_ok (allocMem_ok hcan _)) fun buf a halloc => ?_
      refine returns_bind ⟨(), rfl⟩ fun _ _ _ => ?_
      exact returns_bind (hput _ (allocMem_eq_ok halloc).1.2 _) fun _ _ _ =>
        returns_bind (returns_gmrFlush hlook _ _) fun _ _ _ => ⟨(), rfl⟩

theorem returns_parmciGet {size : Nat} (hcan : env.CanAlloc size)
    (hp : (getTransfer src dst size).Proper env proc arena)
    (hr : (getTransfer src dst size).InRange env proc mreg) (h : List Act) :
    (parmciGet env src dst size proc).Returns h := by
  have hmem : (dst, src) ∈ (getTransfer src dst size).segs := List.mem_cons_self
  have hlook : gmrLookup env src proc = .ok (some mreg) := hr.region
  obtain ⟨r, hguard⟩ := guardLookup_returns env dst
  have hget : ∀ buf, buf ≠ 0 → ∀ h, (gmrGet env mreg src buf size proc none).Returns h :=
    fun buf hbuf => returns_segment .get (b := .byte) (.inr rfl) hbuf hlook
      (hr.holds _ hmem)
  rw [parmciGet, hlook, lift_ok_bind, hguard, lift_ok_bind, found, lift_ok_bind]
  split
  · exact ⟨(), rfl⟩
  · split
    · exact returns_bind (hget dst (hp.nonnull _ hmem) h) fun _ _ _ => returns_gmrFlush hlook _ _
    · refine returns_bind (returns_allocMem hcan _ h) fun buf a halloc => ?_
      exact returns_bind (hget _ (allocMem_eq_ok halloc).1.2 _) fun _ _ _ =>
        returns_bind (returns_gmrFlush hlook _ _) fun _ _ _ => ⟨(), rfl⟩

theorem returns_accSource {scale : Scale} {bytes : Nat} (hcan : env.CanAlloc bytes)
    (hdvd : scale.base.size ∣ bytes) (srcMreg : Option Gmr) (dstMreg : Gmr) (h : List Act) :
    (accSource env scale src bytes srcMreg dstMreg).Returns h := by
  refine returns_bind ?_ fun buf a _ => ?_
  · unfold scaledSource
    split
    · exact returns_bind (returns_allocMem hcan _ h) fun p _ _ =>
        returns_bind (returns_bufAccScale hdvd _ _ _) fun _ _ _ => ⟨p, rfl⟩
    · exact ⟨src, rfl⟩
  · split
    · exact returns_bind (returns_allocMem hcan _ _) fun p _ _ => ⟨p, rfl⟩
    · exact ⟨buf, rfl⟩

theorem returns_parmciAcc (ha : env.Allocs arena) {scale : Scale} {bytes : Nat}
    (hcan : env.CanAlloc bytes) (hdvd : scale.base.size ∣ bytes)
    (hp : (accTransfer scale src dst bytes).Proper env proc arena)
    (hr : (accTransfer scale src dst bytes).InRange env proc mreg) (h : List Act) :
    (parmciAcc env scale src dst bytes proc).Returns h := by
  have hmem : (src, dst) ∈ (accTransfer scale src dst bytes).segs := List.mem_cons_self
  have hlook : gmrLookup env dst proc = .ok (some mreg) := hr.region
  have htype : (Dtype.predefined scale.base).size = scale.base.size := Nat.mul_one _
  obtain ⟨r, hguard⟩ := guardLookup_returns env src
  rw [parmciAcc, hguard, lift_ok_bind, hlook, lift_ok_bind, found, lift_ok_bind]
  refine returns_bind (returns_accSource hcan hdvd _ _ h) fun buf a hsource => ?_
  have hbuf : buf ≠ 0 := by
    rcases accSource_eq_ok ha (hp.start _ hmem) hsource with
      ⟨-, hgives, -⟩ | ⟨-, ⟨hgives, -⟩ | ⟨rfl, -⟩⟩
    · exact hgives.2
    · exact hgives.2
    · exact hp.nonnull _ hmem
  dsimp only [Scale.accTypeTranslate]
  rw [htype, require_true (Nat.mod_eq_zero_of_dvd hdvd), pure_bind_run]
  refine returns_bind (returns_segment .acc (.inl rfl) hbuf hlook (hr.holds _ hmem) _)
    fun _ _ _ => returns_bind (returns_gmrFlush hlook _ _) fun _ _ _ => ?_
  split <;> exact ⟨(), rfl⟩

-- ------------------------------
-- Strided calls
-- ------------------------------

variable {srcStride dstStride : Nat → Int} {count : Nat → Nat} {levels : Nat}

theorem returns_stridedGuard (env : Env) (buf : Int) (h : List Act) :
    (stridedGuard env buf).Returns h := by
  obtain ⟨r, hr⟩ := lookup_me env buf
  rw [stridedGuard, hr, lift_ok_bind]
  split
  · exact ⟨r, rfl⟩
  · cases r with
    | none => exact ⟨none, rfl⟩
    | some mreg =>
      refine returns_bind ?_ fun _ _ _ => ⟨none, rfl⟩
      obtain ⟨win, g, hreach⟩ := gmrLookup_reaches hr
      rw [gmrSync, hreach.ok.getWindow, lift_ok_bind]
      split <;> exact ⟨(), rfl⟩

theorem StridedOk.product_pos {stride : Nat → Int} {k first : Nat}
    (hok : StridedOk stride count levels k) (hfirst : 0 < first) :
    0 < stridedProduct first count levels := by
  obtain ⟨ds, hds⟩ := hok.head
  rw [stridedBlocks_length stride, hds]
  exact Nat.mul_pos (Nat.succ_pos _) hfirst

theorem StridedOk.canAlloc {stride : Nat → Int} {k : Nat} (hok : StridedOk stride count levels k)
    (ha : env.Allocs arena) : env.CanAlloc (stridedProduct (count 0) count levels) :=
  ha.canAlloc _ (hok.product_pos (hok.pos 0 (Nat.zero_le _)))

theorem returns_stridedPrepareRead (ha : env.Allocs arena) (hok : StridedOk srcStride count levels 1)
    (h : List Act) : (stridedPrepareRead env src srcStride count levels).Returns h := by
  refine returns_bind (returns_stridedGuard env src h) fun r a _ => ?_
  cases r with
  | some _ =>
    exact returns_bind (returns_allocMem (hok.canAlloc ha) _ _)
      fun p _ _ => returns_bind (returns_of_ok (armciWriteStrided_run _ _ hok.level_pos _))
        fun _ _ _ => ⟨_, rfl⟩
  | none =>
    obtain ⟨t, ht, -⟩ := stridedToDtype_eq (b := .byte) hok
    dsimp only
    rw [ht, lift_ok_bind]
    exact ⟨_, rfl⟩

theorem returns_stridedPrepareWrite (ha : env.Allocs arena)
    (hok : StridedOk dstStride count levels 1) (h : List Act) :
    (stridedPrepareWrite env dst dstStride count levels).Returns h := by
  refine returns_bind (returns_stridedGuard env dst h) fun r a _ => ?_
  cases r with
  | some _ =>
    exact returns_bind (returns_allocMem (hok.canAlloc ha) _ _) fun p _ _ => ⟨_, rfl⟩
  | none =>
    obtain ⟨t, ht, -⟩ := stridedToDtype_eq (b := .byte) hok
    dsimp only
    rw [ht, lift_ok_bind]
    exact ⟨_, rfl⟩

theorem returns_stridedPrepareAcc (ha : env.Allocs arena) {scale : Scale}
    (hok : StridedOk srcStride count levels scale.base.size) (h : List Act) :
    (stridedPrepareAcc env scale src srcStride count levels).Returns h := by
  have htype : scale.accTypeTranslate.size = scale.base.size := Nat.mul_one _
  have hcan : env.CanAlloc (stridedProduct (count 0 / scale.accTypeTranslate.size) count levels *
      scale.accTypeTranslate.size) := by
    have hfirst : 0 < count 0 / scale.base.size :=
      Nat.div_pos (Nat.le_of_dvd (hok.pos 0 (Nat.zero_le _)) hok.count_dvd) scale.base.size_pos
    rw [htype]
    exact ha.canAlloc _ (Nat.mul_pos (hok.product_pos hfirst) scale.base.size_pos)
  unfold stridedPrepareAcc
  split
  · obtain ⟨r, hr⟩ := guardLookup_returns env src
    rw [hr, lift_ok_bind]
    refine returns_bind (returns_allocMem hcan _ _) fun p a _ => ?_
    obtain ⟨iov, hiov, -, -, hbytes⟩ := stridedToIov_eq src srcStride src srcStride hok.level_pos
    rw [hiov, lift_ok_bind]
    refine returns_bind (returns_forEach (fun q _ h' => returns_bufAccScale ?_ q.1 q.2 h') _)
      fun _ _ _ => ⟨_, rfl⟩
    rw [hbytes]
    exact hok.count_dvd
  · refine returns_bind (returns_stridedGuard env src h) fun r a _ => ?_
    cases r with
    | some _ =>
      exact returns_bind (returns_allocMem hcan _ _) fun p _ _ =>
        returns_bind (returns_of_ok (armciWriteStrided_run _ _ hok.level_pos _)) fun _ _ _ => ⟨_, rfl⟩
    | none =>
      obtain ⟨t, ht, -⟩ := stridedToDtype_eq hok
      dsimp only [Scale.accTypeTranslate]
      rw [ht, lift_ok_bind]
      exact ⟨_, rfl⟩

theorem returns_typed {kind : RmaKind} {atomic : Bool} {b : BaseType} {stride : Nat → Int}
    {rem : Int} {remType : Dtype} (hok : StridedOk stride count levels b.size)
    (htype : stridedToDtype stride count levels (.predefined b) = .ok remType)
    (hlook : gmrLookup env rem proc = .ok (some mreg))
    (hholds : ∀ d ∈ stridedBlocks stride count levels,
      mreg.Holds proc (rem + d) (count 0 / b.size * b.size)) (buf : Int) (type : Dtype)
    (h : List Act) :
    (gmrRmaTyped env kind atomic mreg buf 1 type rem 1 remType proc handle).Returns h := by
  obtain ⟨win, g, hreach⟩ := gmrLookup_reaches hlook
  obtain ⟨t, ht, hbase, hdisps⟩ := stridedToDtype_eq hok
  rw [htype] at ht
  cases ht
  obtain ⟨ds, hds⟩ := hok.head
  have hzero : 0 ∈ stridedBlocks stride count levels := by rw [hds]; exact List.mem_cons_self
  have hfirst := hholds 0 hzero
  rw [Int.add_zero] at hfirst
  have hn : 1 ≤ count 0 / b.size :=
    Nat.div_pos (Nat.le_of_dvd (hok.pos 0 (Nat.zero_le _)) hok.count_dvd) b.size_pos
  have hcover : mreg.Covers proc rem 1 remType := (covers_blocks (hfirst.ne_zero hreach) hn
    (by rw [hbase]; exact hdisps) hzero hok.nonneg).mpr (by rw [hbase]; exact hholds)
  exact returns_of_ok (gmrRmaTyped_ok hreach.ok hreach.rank hcover h)

theorem VecCall.returns_segments (v : VecCall) (ha : env.Allocs arena)
    (hpos : ∀ i ≤ levels, 1 ≤ count i) (hdvd : v.base.size ∣ count 0)
    (hp : (v.strided src srcStride dst dstStride count levels).Proper env proc arena)
    (hr : (v.strided src srcStride dst dstStride count levels).InRange env proc mreg)
    (h : List Act) (hnear : env.cfg.UsesDatatypes →
      (v.strided src srcStride dst dstStride count levels).Near proc mreg ((do
        let iov ← lift (stridedToIov src srcStride dst dstStride count levels)
        forEach (v.entry env proc) [iov] : Script Act Unit) h).2) :
    (do
      let iov ← lift (stridedToIov src srcStride dst dstStride count levels)
      forEach (v.entry env proc) [iov]).Returns h := by
  obtain ⟨iov, hiov, hnop, hbytes, htrans⟩ := stridedToIov_transfer src srcStride dst dstStride hpos
  rw [← htrans] at hp hr hnear
  rw [hiov, lift_ok_bind] at hnear ⊢
  refine returns_forEach_within (List.Subset.refl _) fun g hg h' hsub => ?_
  obtain rfl := List.mem_singleton.mp hg
  exact VecCall.returns ha (hbytes ▸ hdvd) hp hr hnop h' fun huse => (hnear huse).mono hsub

theorem returns_parmciPutS (ha : env.Allocs arena)
    (hp : (putSTransfer src srcStride dst dstStride count levels).Proper env proc arena)
    (hr : (putSTransfer src srcStride dst dstStride count levels).InRange env proc mreg)
    (hsrc : StridedOk srcStride count levels 1) (hdst : StridedOk dstStride count levels 1)
    (h : List Act) (hnear : env.cfg.stridedMethod ≠ .direct → env.cfg.UsesDatatypes →
      (putSTransfer src srcStride dst dstStride count levels).Near proc mreg
        (parmciPutS env src srcStride dst dstStride count levels proc h).2) :
    (parmciPutS env src srcStride dst dstStride count levels proc).Returns h := by
  unfold parmciPutS at hnear ⊢
  split
  · refine returns_bind (returns_stridedPrepareRead ha hsrc h) fun p a _ => ?_
    obtain ⟨buf, type⟩ := p
    obtain ⟨hlook, hholds⟩ := (stridedTransfer_inRange hdst.level_pos).mp hr
    obtain ⟨t, ht, -⟩ := stridedToDtype_eq (b := .byte) hdst
    dsimp only
    rw [ht, lift_ok_bind, hlook, lift_ok_bind, found, lift_ok_bind]
    refine returns_bind (returns_typed hdst ht hlook hholds buf type _) fun _ _ _ =>
      returns_bind (returns_gmrFlush hlook _ _) fun _ _ _ => returns_of_ok (freeIf_run _ _ _)
  · rw [if_neg ‹_›] at hnear
    exact VecCall.returns_segments .put ha hsrc.pos (Nat.one_dvd _) hp hr h (hnear ‹_›)

theorem returns_parmciGetS (ha : env.Allocs arena)
    (hp : (getSTransfer src srcStride dst dstStride count levels).Proper env proc arena)
    (hr : (getSTransfer src srcStride dst dstStride count levels).InRange env proc mreg)
    (hsrc : StridedOk srcStride count levels 1) (hdst : StridedOk dstStride count levels 1)
    (h : List Act) (hnear : env.cfg.stridedMethod ≠ .direct → env.cfg.UsesDatatypes →
      (getSTransfer src srcStride dst dstStride count levels).Near proc mreg
        (parmciGetS env src srcStride dst dstStride count levels proc h).2) :
    (parmciGetS env src srcStride dst dstStride count levels proc).Returns h := by
  unfold parmciGetS at hnear ⊢
  split
  · refine returns_bind (returns_stridedPrepareWrite ha hdst h) fun p a _ => ?_
    obtain ⟨buf, type⟩ := p
    obtain ⟨hlook, hholds⟩ := (stridedTransfer_inRange hsrc.level_pos).mp hr
    obtain ⟨t, ht, -⟩ := stridedToDtype_eq (b := .byte) hsrc
    dsimp only
    rw [ht, lift_ok_bind, hlook, lift_ok_bind, found, lift_ok_bind]
    refine returns_bind (returns_typed hsrc ht hlook hholds buf type _) fun _ _ _ =>
      returns_bind (returns_gmrFlush hlook _ _) fun _ _ _ => ?_
    split
    · exact returns_bind (returns_of_ok (armciReadStrided_run _ _ hdst.level_pos _))
        fun _ _ _ => ⟨(), rfl⟩
    · exact ⟨(), rfl⟩
  · rw [if_neg ‹_›] at hnear
    exact VecCall.returns_segments .get ha hsrc.pos (Nat.one_dvd _) hp hr h (hnear ‹_›)

theorem returns_parmciAccS (ha : env.Allocs arena) {scale : Scale}
    (hunit : scale.unit = scale.base.size)
    (hp : (accSTransfer scale src srcStride dst dstStride count levels).Proper env proc arena)
    (hr : (accSTransfer scale src srcStride dst dstStride count levels).InRange env proc mreg)
    (hsrc : StridedOk srcStride count levels scale.base.size)
    (hdst : StridedOk dstStride count levels scale.base.size) (h : List Act)
    (hnear : env.cfg.stridedMethod ≠ .direct → env.cfg.UsesDatatypes →
      (accSTransfer scale src srcStride dst dstStride count levels).Near proc mreg
        (parmciAccS env scale src srcStride dst dstStride count levels proc h).2) :
    (parmciAccS env scale src srcStride dst dstStride count levels proc).Returns h := by
  have hn : count 0 = count 0 / scale.base.size * scale.base.size :=
    (Nat.div_mul_cancel hsrc.count_dvd).symm
  have hlen := userBlocks_length src dst srcStride dstStride count levels
  unfold parmciAccS at hnear ⊢
  split
  · refine returns_bind (returns_stridedPrepareAcc ha hsrc h) fun p a hprep => ?_
    obtain ⟨buf, type⟩ := p
    obtain ⟨hlook, hholds⟩ := (stridedTransfer_inRange hdst.level_pos).mp hr
    obtain ⟨t, ht, hbase, hdisps⟩ := stridedToDtype_eq hdst
    have huser := hp.users_outside hlen rfl hn.symm
    obtain ⟨bufs, hl, -⟩ := stridedPrepareAcc_eq_ok ha hunit hsrc hn (fun u hu => (huser u hu).1)
      (fun u hu => (huser u hu).2) hlen hprep
    have hsize := hl.size_eq hlen hbase hdisps
    dsimp only [Scale.accTypeTranslate]
    rw [ht, lift_ok_bind, require_true hsize, pure_bind_run, hlook, lift_ok_bind, found, lift_ok_bind]
    exact returns_bind (returns_typed hdst ht hlook hholds buf type _) fun _ _ _ =>
      returns_bind (returns_gmrFlush hlook _ _) fun _ _ _ => returns_of_ok (freeIf_run _ _ _)
  · rw [if_neg ‹_›] at hnear
    exact VecCall.returns_segments (.acc scale) ha hsrc.pos hsrc.count_dvd hp hr h (hnear ‹_›)

end

end ArmciMpi
