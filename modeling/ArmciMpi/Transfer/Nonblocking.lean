import ArmciMpi.Transfer.Accesses
import ArmciMpi.Transfer.Calls
import ArmciMpi.Transfer.Release

/-!
# Nonblocking calls do what they are asked

A nonblocking call serves its transfers in one of three ways. It posts the
operations on the caller's own buffers and returns; it stages the transfer in a
temporary buffer, as the blocking call does, and completes it before it releases
the buffer; or, for vectors with guarded buffers, it blocks. The scaled accumulate
of a vector can do none of these (`NbCall.Settled`): that case is left out here.
`NbCall.performs` is the result for all nine calls.
-/

namespace ArmciMpi

open Lib Script VecCall Phases

def Transfer.ServedBy (env : Env) (proc : Nat) (arena : Set Int) (t : Transfer)
    (p : Script Act Unit) (h : List Act) : Prop :=
  ∃ acts, p h = (.ok (), acts) ∧ t.Serves env proc arena acts

theorem gmrProgress_ok (env : Env) (h : List Act) :
    ∃ a, gmrProgress env h = (.ok (), a) ∧ actSteps env.me a = [] := by
  unfold gmrProgress
  split
  · exact ⟨_, rfl, rfl⟩
  · exact ⟨_, rfl, rfl⟩

section
variable {env : Env} {proc : Nat} {arena : Set Int} {mreg : Gmr} {t : Transfer}
  {handle : Option Nat} {p : Script Act Unit} {h : List Act}

theorem Transfer.ServedBy.progress (hs : t.ServedBy env proc arena p h) :
    t.ServedBy env proc arena (do p; gmrProgress env) h := by
  obtain ⟨acts, hrun, hserves⟩ := hs
  obtain ⟨a, hprog, hnone⟩ := gmrProgress_ok env (h ++ acts)
  exact ⟨_, bind_ok hrun hprog, hserves.append hnone⟩

theorem servedBy_of_does (hp : t.Proper env proc arena) (hret : p.Returns h)
    (hdoes : ∀ acts, p h = (.ok (), acts) → t.Does env proc arena acts) :
    t.ServedBy env proc arena p h := by
  obtain ⟨_, acts, hrun⟩ := hret.run
  exact ⟨acts, hrun, (hdoes acts hrun).serves hp⟩

def releaseActs (env : Env) (win : Win) (g : Nat) (buf user : Int) : List Act :=
  if buf ≠ user then [flushAct env true win g, .freeMem buf] else []

theorem release_run {win : Win} {g : Nat} (hreach : Reaches env mreg proc win g)
    {issue : Script Act Unit} {a : List Act} (hissue : issue h = (.ok (), a)) (buf user : Int) :
    ∃ a', (do
        issue
        if buf ≠ user then
          gmrFlush env mreg proc true
          emit (.freeMem buf)
        gmrProgress env) h = (.ok (), a ++ (releaseActs env win g buf user ++ a')) ∧
      actSteps env.me a' = [] := by
  unfold releaseActs
  split
  · obtain ⟨a', hprog, hnone⟩ := gmrProgress_ok env
      (h ++ a ++ [flushAct env true win g] ++ [.freeMem buf])
    have hfree := bind_ok (q := fun _ => gmrProgress env) (emit_run (Act.freeMem buf) _) hprog
    have hflush := bind_ok (q := fun _ => emit (.freeMem buf) >>= fun _ => gmrProgress env)
      (gmrFlush_ok hreach.ok hreach.rank true (h ++ a)) hfree
    exact ⟨a', bind_ok hissue hflush, hnone⟩
  · obtain ⟨a', hprog, hnone⟩ := gmrProgress_ok env (h ++ a)
    exact ⟨a', bind_ok hissue hprog, hnone⟩

-- ------------------------------
-- Contiguous calls
-- ------------------------------

theorem single_posted (kind : RmaKind) {b : BaseType} {n : Nat} {src dst : Int}
    (hp : (single kind b n id (localOf kind src dst) (remoteOf kind src dst)).Proper env proc arena)
    (hr : (single kind b n id (localOf kind src dst) (remoteOf kind src dst)).InRange env proc mreg)
    (handle : Option Nat) (h : List Act) :
    (single kind b n id (localOf kind src dst) (remoteOf kind src dst)).ServedBy env proc arena
      (gmrSegment env kind mreg src dst n (.predefined b) proc handle) h := by
  obtain ⟨win, g, hreach⟩ := gmrLookup_reaches hr.region
  obtain ⟨a, hrun, hsends⟩ := sends_gmrSegment hreach hp.fits (hp.nonnull _ List.mem_cons_self)
    (hr.holds _ List.mem_cons_self) handle h
  refine ⟨a, hrun, hp.serves_posted rfl ?_ hreach.rank (gmrLookup_live hr.region hreach)⟩
  rwa [show (single kind b n id (localOf kind src dst) (remoteOf kind src dst)).segs = [_] from rfl,
    List.flatMap_singleton]

variable {src dst : Int}

theorem parmciNbPut_served {size : Nat} (hp : (putTransfer src dst size).Proper env proc arena)
    (hr : (putTransfer src dst size).InRange env proc mreg) (handle : Option Nat) (h : List Act) :
    (putTransfer src dst size).ServedBy env proc arena
      (parmciNbPut env src dst size proc handle) h := by
  obtain ⟨r, hguard⟩ := guardLookup_returns env src
  rw [parmciNbPut, show gmrLookup env dst proc = .ok (some mreg) from hr.region, lift_ok_bind,
    hguard, lift_ok_bind, found, lift_ok_bind]
  split
  · rename_i hself
    have hdoes : (putTransfer src dst size).Does env proc arena [.copy src dst size] :=
      .copy (src, dst) rfl (fun hacc => by cases hacc) rfl hself.1
    exact Transfer.ServedBy.progress ⟨_, rfl, hdoes.serves hp⟩
  · exact (single_posted .put hp hr handle h).progress

theorem parmciNbGet_served {size : Nat} (hp : (getTransfer src dst size).Proper env proc arena)
    (hr : (getTransfer src dst size).InRange env proc mreg) (handle : Option Nat) (h : List Act) :
    (getTransfer src dst size).ServedBy env proc arena
      (parmciNbGet env src dst size proc handle) h := by
  obtain ⟨r, hguard⟩ := guardLookup_returns env dst
  rw [parmciNbGet, show gmrLookup env src proc = .ok (some mreg) from hr.region, lift_ok_bind,
    hguard, lift_ok_bind, found, lift_ok_bind]
  split
  · rename_i hself
    have hdoes : (getTransfer src dst size).Does env proc arena [.copy src dst size] :=
      .copy (dst, src) rfl (fun hacc => by cases hacc) rfl hself.1
    exact Transfer.ServedBy.progress ⟨_, rfl, hdoes.serves hp⟩
  · exact (single_posted .get hp hr handle h).progress

theorem parmciNbAcc_served (ha : env.Allocs arena) {scale : Scale}
    (hunit : scale.unit = scale.base.size) {bytes : Nat} (hcan : env.CanAlloc bytes)
    (hdvd : scale.base.size ∣ bytes) (hp : (accTransfer scale src dst bytes).Proper env proc arena)
    (hr : (accTransfer scale src dst bytes).InRange env proc mreg) (handle : Option Nat)
    (h : List Act) :
    (accTransfer scale src dst bytes).ServedBy env proc arena
      (parmciNbAcc env scale src dst bytes proc handle) h := by
  have hmem : (src, dst) ∈ (accTransfer scale src dst bytes).segs := List.mem_cons_self
  have hlook : gmrLookup env dst proc = .ok (some mreg) := hr.region
  have htype : (Dtype.predefined scale.base).size = scale.base.size := Nat.mul_one _
  obtain ⟨r, hguard⟩ := guardLookup_returns env src
  obtain ⟨buf, a₁, hsource⟩ : ∃ buf a₁, accSource env scale src bytes r mreg h = (.ok buf, a₁) :=
    (returns_accSource hcan hdvd r mreg h).run
  obtain ⟨n, rfl⟩ : ∃ n, bytes = n * scale.base.size := ⟨_, (Nat.div_mul_cancel hdvd).symm⟩
  have hn : n * scale.base.size / scale.base.size = n := Nat.mul_div_cancel n scale.base.size_pos
  unfold accTransfer at hp hr hmem ⊢
  rw [hn] at hp hr hmem ⊢
  have hst : Staged env.me arena scale.base.size n scale.applied [⟨src, buf, dst⟩] a₁ :=
    staged_accSource ha hunit (hp.start _ hmem) (hp.user _ hmem) hsource
  obtain ⟨win, g, hreach⟩ := gmrLookup_reaches hlook
  have hnull : buf ≠ 0 := by
    rcases accSource_eq_ok ha (hp.start _ hmem) hsource with
      ⟨-, hgives, -⟩ | ⟨-, ⟨hgives, -⟩ | ⟨rfl, -⟩⟩
    · exact hgives.2
    · exact hgives.2
    · exact hp.nonnull _ hmem
  have hfits : RmaKind.acc.Fits scale.base := hp.fits
  obtain ⟨a₂, hacc, hsends⟩ :=
    sends_gmrSegment hreach hfits hnull (hr.holds _ hmem) handle (h ++ a₁)
  obtain ⟨a₃, hrest, hnone⟩ := release_run hreach hacc buf src
  have hrun : parmciNbAcc env scale src dst (n * scale.base.size) proc handle h =
      (.ok (), a₁ ++ (a₂ ++ (releaseActs env win g buf src ++ a₃))) := by
    rw [parmciNbAcc, hguard, lift_ok_bind, hlook, lift_ok_bind, found, lift_ok_bind]
    refine bind_ok hsource ?_
    rw [Scale.accTypeTranslate, htype, hn, require_true (Nat.mul_mod_left n scale.base.size),
      pure_bind_run]
    exact hrest
  refine ⟨_, hrun, ?_⟩
  rw [← List.append_assoc a₂, ← List.append_assoc a₁]
  refine Transfer.Serves.append ?_ hnone
  -- a private source is flushed and released
  have hprivate : env.Gives h (n * scale.base.size) buf → allocs a₁ = [buf] →
      frees a₁ = [] → (single .acc scale.base n scale.applied src dst).Does env proc arena
        (a₁ ++ (a₂ ++ releaseActs env win g buf src)) := by
    intro hbuf hallocs hfrees
    have hne : buf ≠ src := fun heq => hp.start _ hmem (heq ▸ ha.mem hbuf)
    rw [releaseActs, if_pos hne]
    refine single_does [.freeMem buf] (by decide) hp hr hst hnull (fun _ heq => absurd heq hne) hacc
      (gmrFlush_ok hreach.ok hreach.rank true []) ?_ hfrees rfl rfl ?_
    · rw [hallocs]
      exact List.forall_mem_singleton.mpr (ha.mem hbuf)
    · rw [hallocs]
      rfl
  rcases accSource_eq_ok ha (hp.start _ hmem) hsource with
    ⟨-, hbuf, rfl⟩ | ⟨hscaled, ⟨hbuf, rfl⟩ | ⟨rfl, rfl, -⟩⟩
  · exact (hprivate hbuf rfl rfl).serves hp
  · exact (hprivate hbuf rfl rfl).serves hp
  · rw [releaseActs, if_neg (not_not.mpr rfl), List.append_nil]
    refine hp.serves_posted (if_neg (by rw [hscaled]; decide)) ?_ hreach.rank
      (gmrLookup_live hlook hreach)
    simpa [single, localOf, remoteOf] using hsends

-- ------------------------------
-- Entries of vectors
-- ------------------------------

theorem sends_dispatch {kind : RmaKind} {b : BaseType} {srcs dsts : List Int} {n : Nat}
    {overlapping sameAlloc : Bool} (hok : SegsOk env kind b srcs dsts n proc mreg)
    (hsize : TakesDatatypes env overlapping sameAlloc → (mreg.slice proc).size ≤ intMax)
    (halign : TakesDatatypes env overlapping sameAlloc → ∀ seg ∈ srcs.zip dsts,
      mreg.Aligned proc b.size (lowest (localOf kind srcs dsts)) (orient kind seg))
    (blocking : Bool) (handle : Option Nat) {win : Win} {g : Nat}
    (hr : Reaches env mreg proc win g) (h : List Act) :
    ∃ acts, iovOpDispatch env kind srcs dsts (n * b.size) (.predefined b) overlapping sameAlloc proc
        blocking handle h = (.ok (), acts) ∧
      Sends kind b win g acts
        (((srcs.zip dsts).map (orient kind)).flatMap (segPairs b.size n)) := by
  have hclose : ∀ blocking, Sends kind b win g (closing env kind win g blocking) [] := by
    intro blocking
    unfold closing
    split
    · exact sends_flush env _
    · exact sends_nil
  have hbatched : ∀ consrv blocking, ∃ acts, iovOpBatched env kind srcs dsts n (.predefined b) proc
      consrv blocking handle h = (.ok (), acts) ∧
        Sends kind b win g acts (allPairs kind b.size n (srcs.zip dsts)) := by
    intro consrv blocking
    obtain ⟨a, ha, hsa⟩ := sends_iovOpBatched hok.region hr hok.fits hok.nonempty hok.takes consrv
      blocking handle h
    exact ⟨_, ha, by simpa using hsa.append (hclose blocking)⟩
  rw [← allPairs_eq, iovOpDispatch_elems]
  split
  · exact hbatched true true
  · rename_i hway
    cases hm : env.cfg.iovMethod with
    | direct | auto =>
      have htakes : TakesDatatypes env overlapping sameAlloc := ⟨hway, by simp [hm]⟩
      obtain ⟨a, ha, hsa⟩ := sends_iovOpDatatype hok.region hr (hsize htakes) hok.nonempty
        (fun seg hseg => (hok.takes seg hseg).holds) (halign htakes) blocking handle h
      exact ⟨_, ha, by simpa using hsa.append (hclose blocking)⟩
    | batched => exact hbatched false blocking
    | consrv => exact absurd (.inr (.inr hm)) hway

namespace VecCall

def entryWith (env : Env) (proc : Nat) (blocking : Bool) (handle : Option Nat) :
    VecCall → Giov → Script Act Unit
  | put => putVEntry env proc blocking handle
  | get => getVEntry env proc blocking handle
  | acc scale => accVEntry env scale proc blocking handle

variable {v : VecCall} {iov : Giov} {blocking : Bool}

theorem entryWith_nop (env : Env) (proc : Nat) (blocking : Bool) (handle : Option Nat) (v : VecCall)
    (hnop : iov.Nop) (h : List Act) :
    v.entryWith env proc blocking handle iov h = (.ok (), []) := by
  cases v with
  | put | get | acc => exact congrFun (if_pos hnop) h

theorem entryWith_eq (env : Env) (proc : Nat) (blocking : Bool) (handle : Option Nat) (v : VecCall)
    (hnop : ¬ iov.Nop) :
    v.entryWith env proc blocking handle iov = (do
      let overlapping ← lift (iovCheckOverlap env iov.dstPtrArray iov.bytes)
      let sameAlloc ← lift (iovCheckSameAllocation env (v.rems iov) proc)
      let bufs ← v.prepare env iov
      iovOpDispatch env v.kind (localOf v.kind bufs.1 (v.rems iov))
        (remoteOf v.kind bufs.1 (v.rems iov)) iov.bytes (.predefined v.base) overlapping sameAlloc
          proc blocking handle
      v.finish env iov bufs) := by
  cases v with
  | put =>
    simp only [prepare, bind_assoc_run, pure_bind_run]
    exact if_neg hnop
  | get =>
    simp only [prepare, bind_assoc_run, pure_bind_run]
    exact if_neg hnop
  | acc scale => exact if_neg hnop

theorem entryWith_run {overlapping sameAlloc : Bool} {bufs : List Int × Int} {a b c : List Act}
    (hnop : ¬ iov.Nop) (hover : iovCheckOverlap env iov.dstPtrArray iov.bytes = .ok overlapping)
    (hsame : iovCheckSameAllocation env (v.rems iov) proc = .ok sameAlloc)
    (hprep : v.prepare env iov h = (.ok bufs, a))
    (hdisp : iovOpDispatch env v.kind (localOf v.kind bufs.1 (v.rems iov))
      (remoteOf v.kind bufs.1 (v.rems iov)) iov.bytes (.predefined v.base) overlapping sameAlloc
        proc blocking handle (h ++ a) = (.ok (), b))
    (hfin : v.finish env iov bufs (h ++ a ++ b) = (.ok (), c)) :
    v.entryWith env proc blocking handle iov h = (.ok (), a ++ (b ++ c)) := by
  rw [entryWith_eq env proc blocking handle v hnop, hover, lift_ok_bind, hsame, lift_ok_bind]
  exact bind_ok hprep (bind_ok hdisp hfin)

theorem entryWith_served (ha : env.Allocs arena) (hs : v.Sized) {whole : Bool}
    (hdvd : v.base.size ∣ iov.bytes) (hp : (v.transfer iov whole).Proper env proc arena)
    (hr : (v.transfer iov whole).InRange env proc mreg)
    (hnop : ¬ iov.Nop) (handle : Option Nat) (h : List Act) (hnear : env.cfg.UsesDatatypes →
      (v.transfer iov whole).Near proc mreg (v.entryWith env proc true handle iov h).2) :
    (v.transfer iov whole).ServedBy env proc arena (v.entryWith env proc true handle iov) h := by
  have hpos : 0 < iov.bytes := Nat.pos_of_ne_zero fun h0 => hnop (.inr h0)
  have hstart := VecCall.start hp
  obtain ⟨same, hsame⟩ := iovCheckSameAllocation_returns env (v.rems iov) hr.proc_lt
  refine servedBy_of_does hp ?_ fun acts hrun => ?_
  · have hover := iovCheckOverlap_apart env hpos (VecCall.dst_apart hdvd hp)
    obtain ⟨bufs, a, hprep⟩ := (returns_prepare ha hnop hdvd h).run
    obtain ⟨hb, husable, hfin⟩ := prepare_eq_ok ha hnop hstart hprep
    rw [entryWith_eq env proc true handle v hnop, hover, lift_ok_bind, hsame, lift_ok_bind] at hnear
    have hdisp := Transfer.returns_dispatch ha hp hr
      (fun huse => (hnear huse).mono (bind_acts_left hprep)) (v.transfer_segs iov whole) hb
      (v.length_locs iov) (by rw [v.transfer_base]; exact husable hdvd) false same handle (h ++ a)
    rw [v.transfer_kind, v.transfer_base, VecCall.transfer_bytes whole hdvd] at hdisp
    obtain ⟨_, b, hdisp⟩ := hdisp.run
    obtain ⟨_, c, hfin⟩ := (hfin (h ++ a ++ b)).run
    exact returns_of_ok (entryWith_run hnop hover hsame hprep hdisp hfin)
  · cases v with
    | put => exact putVEntry_does ha hp hr hnop hrun
    | get => exact getVEntry_does ha hp hr hnop hrun
    | acc scale => exact accVEntry_does ha hs hp hr hnop hrun

theorem prepare_noguard (hcfg : env.cfg.shrBufMethod = .noguard)
    (hscale : ∀ scale, v = .acc scale → scale.accIsScaled = false) (iov : Giov) (h : List Act) :
    v.prepare env iov h = (.ok (v.locs iov, 0), []) ∧
      ∀ h', v.finish env iov (v.locs iov, 0) h' = (.ok (), []) := by
  have hguard : ¬ env.cfg.shrBufMethod ≠ .noguard := not_not.mpr hcfg
  cases v with
  | put =>
    rw [prepare, bufPrepareReadVec, if_neg hguard, finish, bufFinishReadVec, if_neg hguard]
    exact ⟨rfl, fun _ => rfl⟩
  | get =>
    rw [prepare, bufPrepareWriteVec, if_neg hguard, finish, bufFinishWriteVec, if_neg hguard]
    exact ⟨rfl, fun _ => rfl⟩
  | acc scale =>
    rw [prepare, bufPrepareAccVec, hscale scale rfl, bufPrepareReadVec, if_neg hguard, finish,
      bufFinishAccVec, if_neg (not_not.mpr rfl)]
    refine ⟨rfl, fun h' => ?_⟩
    rw [freeDifferent_run, freeActs]
    simp [locs, VecCall.kind, localOf, copied_self]

theorem entryWith_posted (ha : env.Allocs arena) {whole : Bool}
    (hcfg : env.cfg.shrBufMethod = .noguard)
    (hscale : ∀ scale, v = .acc scale → scale.accIsScaled = false)
    (hdvd : v.base.size ∣ iov.bytes) (hp : (v.transfer iov whole).Proper env proc arena)
    (hr : (v.transfer iov whole).InRange env proc mreg)
    (hnear : env.cfg.UsesDatatypes → (v.transfer iov whole).Near proc mreg [])
    (hnop : ¬ iov.Nop) (blocking : Bool) (handle : Option Nat) (h : List Act) :
    (v.transfer iov whole).ServedBy env proc arena (v.entryWith env proc blocking handle iov)
      h := by
  have hpos : 0 < iov.bytes := Nat.pos_of_ne_zero fun h0 => hnop (.inr h0)
  obtain ⟨same, hsame⟩ := iovCheckSameAllocation_returns env (v.rems iov) hr.proc_lt
  obtain ⟨hprep, hfin⟩ := prepare_noguard hcfg hscale iov h
  obtain ⟨win, g, hreach⟩ := gmrLookup_reaches hr.region
  have hsegs := v.transfer_segs iov whole
  have hlen := v.length_locs iov
  obtain ⟨hok, hsize, halign⟩ := Transfer.dispatchOk ha hp hr hnear hsegs rfl hlen
    (fun u hu => .inl hu) false same
  obtain ⟨acts, hrun, hsends⟩ := sends_dispatch hok hsize halign blocking handle hreach
    (h ++ [])
  have hcount : (v.transfer iov whole).count * (v.transfer iov whole).base.size = iov.bytes :=
    VecCall.transfer_bytes whole hdvd
  rw [hcount, v.transfer_kind, v.transfer_base] at hrun
  refine ⟨_, entryWith_run hnop (iovCheckOverlap_apart env hpos (VecCall.dst_apart hdvd hp)) hsame
    hprep hrun (hfin _), ?_⟩
  rw [List.nil_append, List.append_nil]
  refine hp.serves_posted ?_ ?_ hreach.rank (gmrLookup_live hr.region hreach)
  · cases v with
    | put | get => rfl
    | acc scale => exact if_neg (by rw [hscale scale rfl]; decide)
  · rwa [map_orient_zip, ← hsegs] at hsends

theorem entryWith_conservative {scale : Scale} (hdvd : scale.base.size ∣ iov.bytes)
    (hcons : Conservative env proc iov) (hnop : ¬ iov.Nop) (blocking : Bool) :
    (VecCall.acc scale).entryWith env proc blocking handle iov =
      (VecCall.acc scale).entryWith env proc true handle iov := by
  obtain ⟨n, hn⟩ : ∃ n, iov.bytes = n * scale.base.size := ⟨_, (Nat.div_mul_cancel hdvd).symm⟩
  have hdisp : ∀ {overlapping sameAlloc : Bool} (bufs : List Int),
      overlapping ∨ !sameAlloc ∨ env.cfg.iovMethod = .consrv →
      ∀ blocking, iovOpDispatch env .acc bufs iov.dstPtrArray iov.bytes scale.accTypeTranslate
        overlapping sameAlloc proc blocking handle =
        iovOpBatched env .acc bufs iov.dstPtrArray n scale.accTypeTranslate proc true true
          handle := by
    intro overlapping sameAlloc bufs hway blocking
    rw [hn, Scale.accTypeTranslate, iovOpDispatch_elems, if_pos hway]
  funext h
  simp only [entryWith, accVEntry, if_neg hnop]
  cases hover : iovCheckOverlap env iov.dstPtrArray iov.bytes with
  | error e => rfl
  | ok overlapping =>
    cases hsame : iovCheckSameAllocation env iov.dstPtrArray proc with
    | error e => rfl
    | ok sameAlloc =>
      have hway : overlapping ∨ !sameAlloc ∨ env.cfg.iovMethod = .consrv := by
        rcases hcons with hc | hc | hc
        · exact .inl (Except.ok.inj (hover.symm.trans hc))
        · exact .inr (.inl (by rw [Except.ok.inj (hsame.symm.trans hc)]; rfl))
        · exact .inr (.inr hc)
      simp only [lift_ok_bind, hdisp _ hway]

theorem nb_served (ha : env.Allocs arena) (hs : v.Sized) {whole : Bool}
    (hset : ∀ scale, v = .acc scale → VectorSettled env proc scale [iov])
    (hdvd : v.base.size ∣ iov.bytes) (hp : (v.transfer iov whole).Proper env proc arena)
    (hr : (v.transfer iov whole).InRange env proc mreg)
    (hnop : ¬ iov.Nop) (handle : Option Nat) (h : List Act) (hnear : env.cfg.UsesDatatypes →
      (v.transfer iov whole).Near proc mreg (v.entryWith env proc (nbBlocking env) handle iov h).2) :
    (v.transfer iov whole).ServedBy env proc arena
      (v.entryWith env proc (nbBlocking env) handle iov) h := by
  rcases nbBlocking_or_noguard env with hb | ⟨hb, hcfg⟩
  · rw [hb] at hnear ⊢
    exact entryWith_served ha hs hdvd hp hr hnop handle h hnear
  · by_cases hscaled : ∃ scale, v = .acc scale ∧ scale.accIsScaled = true
    · obtain ⟨scale, rfl, hscaled⟩ := hscaled
      rcases hset scale rfl with hcopy | hplain | hcons
      · cases hcopy.symm.trans hcfg
      · cases hscaled.symm.trans hplain
      · rw [entryWith_conservative hdvd (hcons iov List.mem_cons_self hnop) hnop] at hnear ⊢
        exact entryWith_served ha hs hdvd hp hr hnop handle h hnear
    · exact entryWith_posted ha hcfg
        (fun scale hv => Bool.not_eq_true _ ▸ fun hyes => hscaled ⟨scale, hv, hyes⟩) hdvd hp hr
        (fun huse => (hnear huse).mono (List.nil_subset _)) hnop _ handle h

theorem nb_performs (v : VecCall) (ha : env.Allocs arena) (hs : v.Sized) {whole : Bool}
    {iovs : List Giov} (hset : ∀ scale, v = .acc scale → VectorSettled env proc scale iovs)
    {all : List Act} (hc : ∀ g ∈ entries iovs, v.base.size ∣ g.bytes ∧
      (v.transfer g whole).Proper env proc arena ∧ ∃ mreg,
        (v.transfer g whole).InRange env proc mreg ∧
          (env.cfg.UsesDatatypes → (v.transfer g whole).Near proc mreg all))
    (handle : Option Nat) (h : List Act)
    (hsub : ((do forEach (v.entryWith env proc (nbBlocking env) handle) iovs; gmrProgress env :
      Script Act Unit) h).2 ⊆ all) :
    ∃ acts, (do forEach (v.entryWith env proc (nbBlocking env) handle) iovs; gmrProgress env) h =
        (.ok (), acts) ∧
      Performs env arena (((entries iovs).map fun g => v.transfer g whole).map
        fun t => .access ⟨env.me, proc, t, true⟩) acts := by
  induction iovs generalizing h with
  | nil =>
    obtain ⟨a, hprog, hnone⟩ := gmrProgress_ok env h
    exact ⟨a ++ [], by rw [List.append_nil, forEach, pure_bind_run, hprog], .skip hnone .nil⟩
  | cons g iovs ih =>
    have hrest : ∀ scale, v = .acc scale → VectorSettled env proc scale iovs := fun scale hv =>
      (hset scale hv).imp_right (.imp_right fun hcons iov hmem =>
        hcons iov (List.mem_cons_of_mem g hmem))
    have hone : ∀ scale, v = .acc scale → VectorSettled env proc scale [g] := fun scale hv =>
      (hset scale hv).imp_right (.imp_right fun hcons iov hmem =>
        hcons iov (List.mem_singleton.mp hmem ▸ List.mem_cons_self))
    rw [forEach_cons, bind_assoc_run] at hsub ⊢
    have hfirst : (v.entryWith env proc (nbBlocking env) handle g h).2 ⊆ all := fun x hx =>
      hsub (acts_subset_bind _ _ h hx)
    by_cases hnop : g.Nop
    · rw [entries, List.filter_cons_of_neg (by simpa using hnop)] at hc ⊢
      have hskip := entryWith_nop env proc (nbBlocking env) handle v hnop h
      have hthen := List.Subset.trans (bind_acts_right hskip) hsub
      rw [List.append_nil] at hthen
      obtain ⟨acts, hrun, hperf⟩ := ih hrest hc h hthen
      exact ⟨_, bind_ok hskip (by rwa [List.append_nil]), hperf⟩
    · rw [entries, List.filter_cons_of_pos (by simpa using hnop)] at hc ⊢
      obtain ⟨⟨hdvd, hp, mreg, hr, hnear⟩, hc⟩ := List.forall_mem_cons.mp hc
      obtain ⟨a, hserve, hserves⟩ := nb_served ha hs hone hdvd hp hr hnop handle h
        fun huse => (hnear huse).mono hfirst
      have hthen := List.Subset.trans (bind_acts_right hserve) hsub
      obtain ⟨acts, hrun, hperf⟩ := ih hrest hc (h ++ a) hthen
      exact ⟨_, bind_ok hserve hrun, .access hp hserves (fun hno => by cases hno) hperf⟩

end VecCall

-- ------------------------------
-- Strided calls
-- ------------------------------

variable {srcStride dstStride : Nat → Int} {count : Nat → Nat} {levels : Nat}

theorem VecCall.nb_segments (v : VecCall) (ha : env.Allocs arena) (hs : v.Sized)
    (hset : ∀ scale, v = .acc scale → ∀ iov,
      stridedToIov src srcStride dst dstStride count levels = .ok iov →
        VectorSettled env proc scale [iov])
    (hpos : ∀ i ≤ levels, 1 ≤ count i) (hdvd : v.base.size ∣ count 0)
    (hp : (v.strided src srcStride dst dstStride count levels).Proper env proc arena)
    (hr : (v.strided src srcStride dst dstStride count levels).InRange env proc mreg)
    (handle : Option Nat) (h : List Act) (hnear : env.cfg.UsesDatatypes →
      (v.strided src srcStride dst dstStride count levels).Near proc mreg ((do
        let iov ← lift (stridedToIov src srcStride dst dstStride count levels)
        (do forEach (v.entryWith env proc (nbBlocking env) handle) [iov]; gmrProgress env)
        gmrProgress env : Script Act Unit) h).2) :
    (v.strided src srcStride dst dstStride count levels).ServedBy env proc arena (do
      let iov ← lift (stridedToIov src srcStride dst dstStride count levels)
      (do forEach (v.entryWith env proc (nbBlocking env) handle) [iov]; gmrProgress env)
      gmrProgress env) h := by
  obtain ⟨iov, hiov, hnop, hbytes, htrans⟩ := stridedToIov_transfer src srcStride dst dstStride hpos
  rw [← htrans] at hp hr hnear ⊢
  rw [hiov, lift_ok_bind] at hnear
  rw [hiov, lift_ok_bind]
  have hsub : (v.entryWith env proc (nbBlocking env) handle iov h).2 ⊆
      (forEach (v.entryWith env proc (nbBlocking env) handle) [iov] h).2 := acts_subset_bind _ _ h
  obtain ⟨a, hrun, hserves⟩ := nb_served ha hs (fun scale hv => hset scale hv iov hiov)
    (hbytes ▸ hdvd) hp hr hnop handle h fun huse => (hnear huse).mono
      fun x hx => acts_subset_bind _ _ h (acts_subset_bind _ _ h (hsub hx))
  have hone : forEach (v.entryWith env proc (nbBlocking env) handle) [iov] h = (.ok (), a ++ []) :=
    bind_ok hrun rfl
  exact Transfer.ServedBy.progress (Transfer.ServedBy.progress
    ⟨_, hone, by rwa [List.append_nil]⟩)

theorem stridedPrepareRead_steps (ha : env.Allocs arena) {type : Dtype} {acts : List Act}
    (hstart : src ∉ arena)
    (hrun : stridedPrepareRead env src srcStride count levels h = (.ok (src, type), acts)) :
    actSteps env.me acts = [] := by
  obtain ⟨r, a, rest, hguard, hrest, rfl⟩ := bind_eq_ok.mp hrun
  obtain ⟨hsteps, -⟩ := stridedGuard_eq_ok hguard
  cases r with
  | some _ =>
    obtain ⟨p, a', rest', hnew, hrest', rfl⟩ := bind_eq_ok.mp hrest
    obtain ⟨hgives, rfl⟩ := allocMem_eq_ok hnew
    obtain ⟨_, a'', rest'', -, hpure, rfl⟩ := bind_eq_ok.mp hrest'
    cases hpure
    exact absurd (ha.mem hgives) hstart
  | none =>
    obtain ⟨t, -, hpure⟩ := lift_bind_eq_ok.mp hrest
    cases hpure
    rw [actSteps_append, hsteps]
    rfl

theorem stridedPrepareAcc_steps (ha : env.Allocs arena) {scale : Scale} {type : Dtype}
    {acts : List Act} (hstart : src ∉ arena)
    (hrun : stridedPrepareAcc env scale src srcStride count levels h = (.ok (src, type), acts)) :
    actSteps env.me acts = [] ∧ scale.accIsScaled = false := by
  unfold stridedPrepareAcc at hrun
  split at hrun
  · obtain ⟨_, -, hrun⟩ := lift_bind_eq_ok.mp hrun
    obtain ⟨p, a', rest', hnew, hrest', rfl⟩ := bind_eq_ok.mp hrun
    obtain ⟨hgives, rfl⟩ := allocMem_eq_ok hnew
    obtain ⟨iov, -, hrest'⟩ := lift_bind_eq_ok.mp hrest'
    obtain ⟨_, a'', rest'', -, hpure, rfl⟩ := bind_eq_ok.mp hrest'
    cases hpure
    exact absurd (ha.mem hgives) hstart
  · rename_i hscaled
    refine ⟨?_, Bool.not_eq_true _ ▸ hscaled⟩
    obtain ⟨r, a, rest, hguard, hrest, rfl⟩ := bind_eq_ok.mp hrun
    obtain ⟨hsteps, -⟩ := stridedGuard_eq_ok hguard
    cases r with
    | some _ =>
      obtain ⟨p, a', rest', hnew, hrest', rfl⟩ := bind_eq_ok.mp hrest
      obtain ⟨hgives, rfl⟩ := allocMem_eq_ok hnew
      obtain ⟨_, a'', rest'', -, hpure, rfl⟩ := bind_eq_ok.mp hrest'
      cases hpure
      exact absurd (ha.mem hgives) hstart
    | none =>
      obtain ⟨t, -, hpure⟩ := lift_bind_eq_ok.mp hrest
      cases hpure
      rw [actSteps_append, hsteps]
      rfl

/-- A direct put or accumulate: a temporary buffer is flushed and released, the caller's own
blocks are left in use. -/
theorem direct_serves {kind : RmaKind} {atomic : Bool} {b : BaseType}
    {fill : List UInt8 → List UInt8} {user rem buf : Int} {stride remStride : Nat → Int}
    {type remType : Dtype} {bufs : List Int} (hkind : kind ≠ .get)
    (hp : (stridedTransfer kind b fill user stride rem remStride count levels).Proper env proc
      arena)
    (hr : (stridedTransfer kind b fill user stride rem remStride count levels).InRange env proc
      mreg)
    (hok : StridedOk remStride count levels b.size) {a₁ a₂ h : List Act}
    (hl : LocalSide env arena b (count 0 / b.size) user (userBlocks user stride count levels) buf
      type bufs a₁)
    (hst : Staged env.me arena b.size (count 0 / b.size) fill
      (mkSegs (userBlocks user stride count levels) bufs (userBlocks rem remStride count levels))
        a₁)
    (hplace : buf = user → actSteps env.me a₁ = [] ∧ fill = id)
    (htype : stridedToDtype remStride count levels (.predefined b) = .ok remType)
    (hrma : gmrRmaTyped env kind atomic mreg buf 1 type rem 1 remType proc handle h = (.ok (), a₂))
    {win : Win} {g : Nat} (hreach : Reaches env mreg proc win g) :
    (stridedTransfer kind b fill user stride rem remStride count levels).Serves env proc arena
      (a₁ ++ (a₂ ++ releaseActs env win g buf user)) := by
  by_cases hbuf : buf = user
  · subst hbuf
    obtain ⟨hsteps, hfill⟩ := hplace rfl
    obtain ⟨hlook, hholds⟩ := (stridedTransfer_inRange hok.level_pos).mp hr
    have hlen := userBlocks_length buf rem stride remStride count levels
    have hn : count 0 = count 0 / b.size * b.size := (Nat.div_mul_cancel hok.count_dvd).symm
    have hsends := typed_sends hl hok hn hlen htype hholds hreach hrma
    -- the buffers are those of the caller
    obtain ⟨ds, hds⟩ := stridedBlocks_head stride hok.level_pos
    have hfirst : buf ∈ userBlocks buf stride count levels := by simp [userBlocks, hds]
    have hmine : bufs = userBlocks buf stride count levels := by
      rcases hl.place with ⟨-, hbufs, -⟩ | ⟨hmem, -⟩
      · exact hbufs
      · exact absurd hmem (hp.users_outside hlen rfl rfl buf hfirst).1
    rw [hmine, mkSegs_sent rfl hlen] at hsends
    rw [releaseActs, if_neg (not_not.mpr rfl), List.append_nil]
    refine (hp.serves_posted hfill hsends hreach.rank (gmrLookup_live hlook hreach)).congr ?_
    rw [actSteps_append, hsteps, List.nil_append]
  · rw [releaseActs, if_pos hbuf]
    have hfree : (if buf ≠ user then emit (Act.freeMem buf) else pure ()) [] =
        (.ok (), [.freeMem buf]) := by
      rw [freeIf_run, if_pos hbuf]
    exact (direct_does hkind hp hr hok hl hst htype hrma
      (gmrFlush_ok hreach.ok hreach.rank true []) hfree).serves hp

theorem parmciNbPutS_served (ha : env.Allocs arena)
    (hp : (putSTransfer src srcStride dst dstStride count levels).Proper env proc arena)
    (hr : (putSTransfer src srcStride dst dstStride count levels).InRange env proc mreg)
    (hsrc : StridedOk srcStride count levels 1) (hdst : StridedOk dstStride count levels 1)
    (handle : Option Nat) (h : List Act)
    (hnear : env.cfg.stridedMethod ≠ .direct → env.cfg.UsesDatatypes →
      (putSTransfer src srcStride dst dstStride count levels).Near proc mreg
        (parmciNbPutS env src srcStride dst dstStride count levels proc handle h).2) :
    (putSTransfer src srcStride dst dstStride count levels).ServedBy env proc arena
      (parmciNbPutS env src srcStride dst dstStride count levels proc handle) h := by
  have hlen := userBlocks_length src dst srcStride dstStride count levels
  have hone : count 0 / BaseType.byte.size = count 0 := Nat.div_one _
  have hbytes : (putSTransfer src srcStride dst dstStride count levels).bytes = count 0 :=
    (Transfer.bytes_byte rfl).trans hone
  unfold parmciNbPutS at hnear ⊢
  split
  · obtain ⟨⟨buf, type⟩, a₁, hprep⟩ : ∃ p a₁, stridedPrepareRead env src srcStride count levels h =
        (.ok p, a₁) := (returns_stridedPrepareRead ha hsrc h).run
    obtain ⟨hlook, hholds⟩ := (stridedTransfer_inRange hdst.level_pos).mp hr
    obtain ⟨remType, htype, -⟩ := stridedToDtype_eq (b := .byte) hdst
    obtain ⟨win, g, hreach⟩ := gmrLookup_reaches hlook
    have huser := hp.users_outside hlen rfl hbytes
    obtain ⟨bufs, hl, hst⟩ := stridedPrepareRead_eq_ok ha hsrc (fun u hu => (huser u hu).1)
      (fun u hu => (huser u hu).2) hlen hprep
    rw [← hone] at hl hst
    obtain ⟨_, a₂, hrma⟩ : ∃ u a₂, gmrPutTyped env mreg buf 1 type dst 1 remType proc handle
        (h ++ a₁) = (.ok u, a₂) := (returns_typed hdst htype hlook hholds buf type (h ++ a₁)).run
    obtain ⟨a₃, hrest, hnone⟩ := release_run hreach hrma buf src
    refine ⟨a₁ ++ (a₂ ++ (releaseActs env win g buf src ++ a₃)), bind_ok hprep ?_, ?_⟩
    · simp only [htype, lift_ok_bind, hlook, found]
      exact hrest
    · rw [← List.append_assoc a₂, ← List.append_assoc a₁]
      refine (direct_serves (by decide) hp hr hdst hl hst (fun hbuf => ?_) htype hrma hreach).append
        hnone
      subst hbuf
      obtain ⟨ds, hds⟩ := hsrc.head
      exact ⟨stridedPrepareRead_steps ha (huser buf (by simp [userBlocks, hds])).1 hprep, rfl⟩
  · rw [if_neg ‹_›] at hnear
    exact VecCall.nb_segments .put ha trivial (fun _ hv => by cases hv) hsrc.pos (Nat.one_dvd _) hp
      hr handle h (hnear ‹_›)

theorem parmciNbAccS_served (ha : env.Allocs arena) {scale : Scale}
    (hunit : scale.unit = scale.base.size)
    (hset : env.cfg.stridedMethod = .direct ∨ ∀ iov,
      stridedToIov src srcStride dst dstStride count levels = .ok iov →
        VectorSettled env proc scale [iov])
    (hp : (accSTransfer scale src srcStride dst dstStride count levels).Proper env proc arena)
    (hr : (accSTransfer scale src srcStride dst dstStride count levels).InRange env proc mreg)
    (hsrc : StridedOk srcStride count levels scale.base.size)
    (hdst : StridedOk dstStride count levels scale.base.size) (handle : Option Nat) (h : List Act)
    (hnear : env.cfg.stridedMethod ≠ .direct → env.cfg.UsesDatatypes →
      (accSTransfer scale src srcStride dst dstStride count levels).Near proc mreg
        (parmciNbAccS env scale src srcStride dst dstStride count levels proc handle h).2) :
    (accSTransfer scale src srcStride dst dstStride count levels).ServedBy env proc arena
      (parmciNbAccS env scale src srcStride dst dstStride count levels proc handle) h := by
  have hn : count 0 = count 0 / scale.base.size * scale.base.size :=
    (Nat.div_mul_cancel hsrc.count_dvd).symm
  have hlen := userBlocks_length src dst srcStride dstStride count levels
  unfold parmciNbAccS at hnear ⊢
  split
  · obtain ⟨⟨buf, type⟩, a₁, hprep⟩ : ∃ p a₁, stridedPrepareAcc env scale src srcStride count levels
        h = (.ok p, a₁) := (returns_stridedPrepareAcc ha hsrc h).run
    obtain ⟨hlook, hholds⟩ := (stridedTransfer_inRange hdst.level_pos).mp hr
    obtain ⟨remType, htype, hbase, hdisps⟩ := stridedToDtype_eq hdst
    obtain ⟨win, g, hreach⟩ := gmrLookup_reaches hlook
    have huser := hp.users_outside hlen rfl hn.symm
    obtain ⟨bufs, hl, hst⟩ := stridedPrepareAcc_eq_ok ha hunit hsrc hn (fun u hu => (huser u hu).1)
      (fun u hu => (huser u hu).2) hlen hprep
    have hsize := hl.size_eq hlen hbase hdisps
    obtain ⟨_, a₂, hrma⟩ : ∃ u a₂, gmrAccumulateTyped env mreg buf 1 type dst 1 remType proc handle
        (h ++ a₁) = (.ok u, a₂) := (returns_typed hdst htype hlook hholds buf type (h ++ a₁)).run
    obtain ⟨a₃, hrest, hnone⟩ := release_run hreach hrma buf src
    refine ⟨a₁ ++ (a₂ ++ (releaseActs env win g buf src ++ a₃)), bind_ok hprep ?_, ?_⟩
    · simp only [Scale.accTypeTranslate, htype, lift_ok_bind, require_true hsize, pure_bind_run,
        hlook, found]
      exact hrest
    · rw [← List.append_assoc a₂, ← List.append_assoc a₁]
      refine (direct_serves (by decide) hp hr hdst hl hst (fun hbuf => ?_) htype hrma hreach).append
        hnone
      subst hbuf
      obtain ⟨ds, hds⟩ := hsrc.head
      obtain ⟨hsteps, hscaled⟩ := stridedPrepareAcc_steps ha
        (huser buf (by simp [userBlocks, hds])).1 hprep
      exact ⟨hsteps, if_neg (by rw [hscaled]; decide)⟩
  · rw [if_neg ‹_›] at hnear
    exact VecCall.nb_segments (.acc scale) ha hunit
      (fun _ hv => by cases hv; exact hset.resolve_left ‹_›) hsrc.pos hsrc.count_dvd hp hr handle h
      (hnear ‹_›)

/-- A temporary buffer of a get is copied from after a flush of the origin only, which is
enough for a get. -/
theorem parmciNbGetS_served (ha : env.Allocs arena)
    (hp : (getSTransfer src srcStride dst dstStride count levels).Proper env proc arena)
    (hr : (getSTransfer src srcStride dst dstStride count levels).InRange env proc mreg)
    (hsrc : StridedOk srcStride count levels 1) (hdst : StridedOk dstStride count levels 1)
    (handle : Option Nat) (h : List Act)
    (hnear : env.cfg.stridedMethod ≠ .direct → env.cfg.UsesDatatypes →
      (getSTransfer src srcStride dst dstStride count levels).Near proc mreg
        (parmciNbGetS env src srcStride dst dstStride count levels proc handle h).2) :
    (getSTransfer src srcStride dst dstStride count levels).ServedBy env proc arena
      (parmciNbGetS env src srcStride dst dstStride count levels proc handle) h := by
  have hlen := userBlocks_length dst src dstStride srcStride count levels
  have hcount : (getSTransfer src srcStride dst dstStride count levels).count = count 0 :=
    Nat.div_one _
  have hbytes := (Transfer.bytes_byte rfl).trans hcount
  have hone : count 0 = count 0 * BaseType.byte.size := (Nat.mul_one _).symm
  unfold parmciNbGetS at hnear ⊢
  split
  · obtain ⟨⟨buf, type⟩, a₁, hprep⟩ : ∃ p a₁, stridedPrepareWrite env dst dstStride count levels h =
        (.ok p, a₁) := (returns_stridedPrepareWrite ha hdst h).run
    obtain ⟨hlook, hholds⟩ := (stridedTransfer_inRange hsrc.level_pos).mp hr
    obtain ⟨remType, htype, -⟩ := stridedToDtype_eq (b := .byte) hsrc
    obtain ⟨win, g, hreach⟩ := gmrLookup_reaches hlook
    have huser := hp.users_outside hlen rfl (hbytes.trans hone)
    have hstart := fun u hu => (huser u hu).1
    obtain ⟨ds, hds⟩ := hdst.head
    have hfirst : dst ∈ userBlocks dst dstStride count levels := by simp [userBlocks, hds]
    obtain ⟨hsteps, bufs, hl⟩ := stridedPrepareWrite_eq_ok ha hdst hprep
    obtain ⟨_, a₂, hrma⟩ : ∃ u a₂, gmrGetTyped env mreg src 1 remType buf 1 type proc handle
        (h ++ a₁) = (.ok u, a₂) := (returns_typed hsrc htype hlook hholds buf type (h ++ a₁)).run
    rw [show count 0 / BaseType.byte.size = count 0 from Nat.div_one _] at hholds
    have hsends := typed_sends hl hsrc hone hlen htype hholds hreach hrma
    rw [← hcount] at hsends
    by_cases hbuf : buf = dst
    · subst hbuf
      obtain ⟨a₃, hprog, hnone⟩ := gmrProgress_ok env (h ++ a₁ ++ a₂)
      refine ⟨a₁ ++ (a₂ ++ a₃), bind_ok hprep ?_, ?_⟩
      · simp only [htype, lift_ok_bind, hlook, found]
        refine bind_ok hrma ?_
        rw [if_neg (not_not.mpr rfl)]
        exact hprog
      · have hmine : bufs = userBlocks buf dstStride count levels := by
          rcases hl.place with ⟨-, hbufs, -⟩ | ⟨hmem, -⟩
          · exact hbufs
          · exact absurd hmem (hstart buf hfirst)
        rw [hmine, mkSegs_sent rfl hlen] at hsends
        have hposted : (getSTransfer src srcStride buf dstStride count levels).Serves env proc arena
            a₂ := hp.serves_posted rfl hsends hreach.rank (gmrLookup_live hlook hreach)
        refine (hposted.append hnone).congr ?_
        rw [actSteps_append, hsteps, List.nil_append]
    · obtain ⟨a₄, hread⟩ : ∃ a₄, armciReadStrided dst levels dstStride count buf
          (h ++ a₁ ++ a₂ ++ [flushAct env true win g]) = (.ok (), a₄) :=
        ⟨_, armciReadStrided_run _ _ hdst.level_pos _⟩
      obtain ⟨a₅, hprog, hnone⟩ := gmrProgress_ok env
        (h ++ a₁ ++ a₂ ++ [flushAct env true win g] ++ a₄ ++ [.freeMem buf])
      have hfree := bind_ok (q := fun _ => gmrProgress env) (emit_run (Act.freeMem buf) _) hprog
      have hcopy := bind_ok (q := fun _ => emit (.freeMem buf) >>= fun _ => gmrProgress env) hread
        hfree
      have hfin : (if buf ≠ dst then (do
          armciReadStrided dst levels dstStride count buf
          emit (.freeMem buf)) else pure ()) (h ++ a₁ ++ a₂ ++ [flushAct env true win g]) =
            (.ok (), a₄ ++ [.freeMem buf]) := by
        rw [if_pos hbuf]
        exact bind_ok hread rfl
      obtain ⟨⟨hnow, -, -⟩, hback⟩ := finishWrite_eq_ok hdst hl hlen hstart hfirst hfin
      have hasked := mkSegs_asked hl.length hlen
      have hplaced := hl.placed hlen fun u hu => (huser u hu).2
      rw [← hone] at hplaced
      have hbufs := hplaced.bufs_apart (hbytes ▸ hp.users_apart rfl hasked)
      rw [← hcount] at hback
      refine ⟨a₁ ++ (a₂ ++ ([flushAct env true win g] ++ (a₄ ++ ([.freeMem buf] ++ a₅)))),
        bind_ok hprep ?_, ?_⟩
      · simp only [htype, lift_ok_bind, hlook, found]
        refine bind_ok hrma ?_
        rw [if_pos hbuf]
        exact bind_ok (gmrFlush_ok hreach.ok hreach.rank true _) hcopy
      · have hserves := hp.serves_fetched rfl hasked (hcount ▸ hplaced.place) (hcount ▸ hbufs)
          hsteps
          hsends hreach.rank true hnow hback
        simpa only [List.append_assoc] using hserves.append hnone
  · rw [if_neg ‹_›] at hnear
    exact VecCall.nb_segments .get ha trivial (fun _ hv => by cases hv) hsrc.pos (Nat.one_dvd _) hp
      hr handle h (hnear ‹_›)

-- ------------------------------
-- All calls
-- ------------------------------

def Call.nb : Call → NbCall
  | put src dst size => .put src dst size
  | get src dst size => .get src dst size
  | acc scale src dst bytes => .acc scale src dst bytes
  | putS src srcStride dst dstStride count levels => .putS src srcStride dst dstStride count levels
  | getS src srcStride dst dstStride count levels => .getS src srcStride dst dstStride count levels
  | accS scale src srcStride dst dstStride count levels =>
    .accS scale src srcStride dst dstStride count levels
  | putV iov => .putV iov
  | getV iov => .getV iov
  | accV scale iov => .accV scale iov

theorem Transfer.ServedBy.performs (hs : t.ServedBy env proc arena p h)
    (hp : t.Proper env proc arena) :
    ∃ acts, p h = (.ok (), acts) ∧ Performs env arena [.access ⟨env.me, proc, t, true⟩] acts := by
  obtain ⟨acts, hrun, hserves⟩ := hs
  refine ⟨acts, hrun, ?_⟩
  rw [← List.append_nil acts]
  exact .access hp hserves (fun hno => by cases hno) .nil

theorem Call.nb_performs (ha : env.Allocs arena) {c : Call} (hc : c.Correct env proc arena)
    (hset : c.nb.Settled env proc) (handle : Option Nat) (h : List Act)
    (hf : c.Feasible env proc (c.nb.run env proc handle h).2) :
    ∃ acts, c.nb.run env proc handle h = (.ok (), acts) ∧
      Performs env arena (c.transfers.map fun t => .access ⟨env.me, proc, t, true⟩) acts := by
  have hmem := fun t ht => hf.of_mem hc (t := t) ht
  cases c with
  | put src dst size =>
    obtain ⟨hp, mreg, hr, -⟩ := hmem _ List.mem_cons_self
    exact (parmciNbPut_served hp hr handle h).performs hp
  | get src dst size =>
    obtain ⟨hp, mreg, hr, -⟩ := hmem _ List.mem_cons_self
    exact (parmciNbGet_served hp hr handle h).performs hp
  | acc scale src dst bytes =>
    obtain ⟨hp, mreg, hr, -⟩ := hmem _ List.mem_cons_self
    have hcan := hf.canAlloc ha List.mem_cons_self
    rw [accTransfer_bytes hc.shaped.2] at hcan
    exact (parmciNbAcc_served ha hc.shaped.1 hcan hc.shaped.2 hp hr handle h).performs hp
  | putS src srcStride dst dstStride count levels =>
    obtain ⟨hp, mreg, hr, hn⟩ := hmem _ List.mem_cons_self
    exact (parmciNbPutS_served ha hp hr hc.shaped.1 hc.shaped.2 handle h hn).performs hp
  | getS src srcStride dst dstStride count levels =>
    obtain ⟨hp, mreg, hr, hn⟩ := hmem _ List.mem_cons_self
    exact (parmciNbGetS_served ha hp hr hc.shaped.1 hc.shaped.2 handle h hn).performs hp
  | accS scale src srcStride dst dstStride count levels =>
    obtain ⟨hp, mreg, hr, hn⟩ := hmem _ List.mem_cons_self
    exact (parmciNbAccS_served ha hc.shaped.1 hset hp hr hc.shaped.2.1 hc.shaped.2.2
      handle h hn).performs hp
  | putV iovs =>
    exact VecCall.nb_performs .put ha trivial (fun _ hv => by cases hv)
      (fun g hg => ⟨Nat.one_dvd _, hf.of_entries hc trivial .put rfl g hg⟩) handle h
      (List.Subset.refl _)
  | getV iovs =>
    exact VecCall.nb_performs .get ha trivial (fun _ hv => by cases hv)
      (fun g hg => ⟨Nat.one_dvd _, hf.of_entries hc trivial .get rfl g hg⟩) handle h
      (List.Subset.refl _)
  | accV scale iovs =>
    exact VecCall.nb_performs (.acc scale) ha hc.shaped.1 (fun _ hv => by cases hv; exact hset)
      (fun g hg => ⟨hc.shaped.2 g hg, hf.of_entries hc trivial (.acc scale) rfl g hg⟩) handle h
      (List.Subset.refl _)

end

end ArmciMpi
