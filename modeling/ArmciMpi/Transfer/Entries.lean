import ArmciMpi.Transfer.Outcome

/-!
# Vector and contiguous calls do what they are asked

Each entry of `PARMCI_PutV`, `PARMCI_GetV` and `PARMCI_AccV` and each call of
`PARMCI_Put`, `PARMCI_Get` and `PARMCI_Acc` that returns has carried out the
transfer it was asked for, whatever the dispatch and the treatment of shared
buffers are.
-/

namespace ArmciMpi

open Lib Script

-- ------------------------------
-- Segments
-- ------------------------------

theorem localOf_swap {α : Type} (kind : RmaKind) (l r : α) :
    localOf kind (localOf kind l r) (remoteOf kind l r) = l := by
  cases kind <;> rfl

theorem remoteOf_swap {α : Type} (kind : RmaKind) (l r : α) :
    remoteOf kind (localOf kind l r) (remoteOf kind l r) = r := by
  cases kind <;> rfl

theorem map_orient_zip (kind : RmaKind) (l r : List Int) :
    ((localOf kind l r).zip (remoteOf kind l r)).map (orient kind) = l.zip r := by
  rw [← zip_orient, localOf_swap, remoteOf_swap]

theorem Seg.zip_sent (segs : List Seg) : (segs.map buf).zip (segs.map rem) = segs.map sent :=
  List.zip_map'

section
variable {env : Env} {proc : Nat} {arena : Set Int} {t : Transfer} {mreg : Gmr} {segs : List Seg}

theorem Transfer.segsOk (hp : t.Proper env proc arena) (hr : t.InRange env proc mreg)
    (hsegs : segs.map Seg.asked = t.segs) (hbuf : ∀ s ∈ segs, s.buf ≠ 0) :
    SegsOk env t.kind t.base (localOf t.kind (segs.map Seg.buf) (segs.map Seg.rem))
      (remoteOf t.kind (segs.map Seg.buf) (segs.map Seg.rem)) t.count proc mreg := by
  have hzip := map_orient_zip t.kind (segs.map Seg.buf) (segs.map Seg.rem)
  rw [Seg.zip_sent] at hzip
  refine ⟨hp.fits, fun hnil => ?_, ?_, fun seg hseg => ?_⟩
  · rw [hnil] at hzip
    refine hp.nonempty ?_
    rw [← hsegs, List.map_eq_nil_iff.mp hzip.symm, List.map_nil]
  · have hrem : t.segs.map Prod.snd = segs.map Seg.rem := by
      rw [← hsegs, List.map_map]
      rfl
    rw [remoteOf_swap, ← hrem]
    exact hr.region
  · have hmem := List.mem_map_of_mem (f := orient t.kind) hseg
    rw [hzip] at hmem
    obtain ⟨s, hs, heq⟩ := List.mem_map.mp hmem
    rw [← heq]
    exact ⟨hbuf s hs, hr.holds s.asked (hsegs ▸ List.mem_map_of_mem hs)⟩

theorem Transfer.sendsAll (hp : t.Proper env proc arena) (hr : t.InRange env proc mreg)
    (hsegs : segs.map Seg.asked = t.segs) (hbuf : ∀ s ∈ segs, s.buf ≠ 0) {bufs rems : List Int}
    (hbufs : segs.map Seg.buf = bufs) (hrems : segs.map Seg.rem = rems)
    {overlapping sameAlloc : Bool} {handle : Option Nat} {h acts : List Act}
    (hrun : iovOpDispatch env t.kind (localOf t.kind bufs rems) (remoteOf t.kind bufs rems) t.bytes
      (.predefined t.base) overlapping sameAlloc proc true handle h = (.ok (), acts)) :
    SendsAll env t.kind t.base t.count proc (segs.map Seg.sent) acts := by
  subst hbufs hrems
  have hsends := sends_iovOpDispatch (t.segsOk hp hr hsegs hbuf) hrun
  rwa [map_orient_zip, Seg.zip_sent] at hsends

theorem buf_ne_zero (ha : env.Allocs arena) (hp : t.Proper env proc arena) (hpos : 0 < t.bytes)
    (hsegs : segs.map Seg.asked = t.segs)
    (hplace : ∀ s ∈ segs, s.buf = s.user ∨ block (env.me, s.buf) t.bytes ⊆ scratch env.me arena) :
    ∀ s ∈ segs, s.buf ≠ 0 := by
  intro s hs
  rcases hplace s hs with heq | hin
  · rw [heq]
    exact hp.nonnull s.asked (hsegs ▸ List.mem_map_of_mem hs)
  · exact fun hzero => ha.null (hzero ▸ mem_arena hpos hin)

variable {a₁ a₂ a₃ : List Act}

theorem SendsAll.does (hkind : t.kind ≠ .get) (hsegs : segs.map Seg.asked = t.segs)
    (hst : Staged env.me arena t.base.size t.count t.fill segs a₁)
    (h : SendsAll env t.kind t.base t.count proc (segs.map Seg.sent) a₂)
    (hrest : actSteps env.me a₃ = []) (htemps : t.Temps env arena segs (a₁ ++ (a₂ ++ a₃))) :
    t.Does env proc arena (a₁ ++ (a₂ ++ a₃)) := by
  obtain ⟨a, win, g, rfl, hrank, hsends, hlive⟩ := h
  have hflag : (t.kind != .get) = true := bne_iff_ne.mpr hkind
  rw [hflag, ← List.append_assoc] at htemps ⊢
  exact .send segs hsegs hkind htemps (.mk a₁ a a₃ win g hst hsends hrank hrest hlive)

theorem SendsAll.does_get (hkind : t.kind = .get) (hbase : t.base = .byte)
    (hsegs : segs.map Seg.asked = t.segs)
    (hplace : ∀ s ∈ segs, s.buf = s.user ∨ block (env.me, s.buf) t.count ⊆ scratch env.me arena)
    (hbufs : segs.Pairwise fun s s' =>
      Disjoint (block (env.me, s.buf) t.count) (block (env.me, s'.buf) t.count))
    (hstart : actSteps env.me a₁ = [])
    (h : SendsAll env t.kind t.base t.count proc (segs.map Seg.sent) a₂)
    (hnow : OnlyNow (actSteps env.me a₃))
    (hback : actXfers env.me a₃ = moveAll (fun x _ => x) t.count (backEnds env.me segs))
    (htemps : t.Temps env arena segs (a₁ ++ (a₂ ++ a₃))) :
    t.Does env proc arena (a₁ ++ (a₂ ++ a₃)) := by
  obtain ⟨a, win, g, rfl, hrank, hsends, -⟩ := h
  rw [hkind, hbase] at hsends
  have hflush : flushAct env (t.kind != .get) win g = .flush win g := by rw [hkind]; rfl
  rw [hflush, ← List.append_assoc] at htemps ⊢
  exact .get segs hsegs hkind hplace hbufs htemps
    (.mk a₁ a a₃ win g hstart hsends hrank hnow hback)

theorem SendsAll.allocs_frees {kind : RmaKind} {b : BaseType} {n : Nat} {pairs : List (Int × Int)}
    {acts : List Act} (h : SendsAll env kind b n proc pairs acts) :
    allocs acts = [] ∧ frees acts = [] := by
  obtain ⟨a, win, g, rfl, hrank, hsends, -⟩ := h
  have hall := (hsends.append (sends_flush env (kind != .get))).each
  constructor <;> refine List.flatMap_eq_nil_iff.mpr fun x hx => ?_ <;> cases hall x hx <;> rfl

theorem SendsAll.temps (h : SendsAll env t.kind t.base t.count proc (segs.map Seg.sent) a₂)
    (hguard : env.cfg.shrBufMethod = .copy → ∀ s ∈ segs, s.buf = s.user → ∃ s' ∈ segs,
      gmrLookup env s'.user env.me = .ok none ∧ (t.whole = false → s' = s))
    (hmine : ∀ p ∈ allocs a₁, p ∈ arena) (hfree : frees a₁ = []) (halloc : allocs a₃ = [])
    (htidy : (frees a₃).Perm (allocs a₁)) :
    t.Temps env arena segs (a₁ ++ (a₂ ++ a₃)) := by
  obtain ⟨ha, hf⟩ := h.allocs_frees
  have hallocs : allocs (a₁ ++ (a₂ ++ a₃)) = allocs a₁ := by
    rw [allocs_append, allocs_append, ha, halloc, List.append_nil, List.append_nil]
  refine ⟨hguard, hallocs ▸ hmine, ?_⟩
  rw [frees_append, frees_append, hallocs, hfree, hf]
  exact htidy

-- ------------------------------
-- Finishing
-- ------------------------------

def copied (bufs : List (Int × Int)) : List (Int × Int) := bufs.filter fun p => p.2 ≠ p.1

theorem eq_of_mem_zip_self {bufs : List Int} {p : Int × Int} (hp : p ∈ bufs.zip bufs) :
    p.2 = p.1 := by
  have hzip : bufs.zip bufs = bufs.map fun b => (b, b) := by
    simpa using List.zip_map' (f := id) (g := id) (l := bufs)
  rw [hzip] at hp
  obtain ⟨b, -, rfl⟩ := List.mem_map.mp hp
  rfl

theorem copied_self (bufs : List Int) : copied (bufs.zip bufs) = [] :=
  List.filter_eq_nil_iff.mpr fun p hp => by simp [eq_of_mem_zip_self hp]

theorem flatMap_copied {β : Type} (f : Int × Int → List β) (bufs : List (Int × Int)) :
    bufs.flatMap (fun p => if p.1 ≠ p.2 then f p else []) = (copied bufs).flatMap f := by
  induction bufs with
  | nil => rfl
  | cons p bufs ih =>
    by_cases hne : p.2 = p.1
    · rw [copied, List.filter_cons_of_neg (by simpa using hne), List.flatMap_cons,
        if_neg (by simpa using hne.symm), List.nil_append]
      exact ih
    · rw [copied, List.filter_cons_of_pos (by simpa using hne), List.flatMap_cons,
        List.flatMap_cons, if_pos (Ne.symm hne)]
      exact congrArg _ ih

def freeActs (bufs : List (Int × Int)) : List Act := (copied bufs).map fun p => .freeMem p.2

theorem freeDifferent_run (bufs : List (Int × Int)) (h : List Act) :
    forEach (fun (orig, new) => if orig ≠ new then emit (.freeMem new) else pure ()) bufs h =
      (.ok (), freeActs bufs) := by
  have hone : ∀ p ∈ bufs, ∀ h : List Act,
      (if p.1 ≠ p.2 then emit (Act.freeMem p.2) else pure ()) h =
        (.ok (), if p.1 ≠ p.2 then [.freeMem p.2] else []) := by
    intro p _ h
    split <;> rfl
  rw [freeActs, List.map_eq_flatMap, ← flatMap_copied]
  exact forEach_ok hone h

theorem freeActs_steps (me : Nat) (bufs : List (Int × Int)) : actSteps me (freeActs bufs) = [] := by
  refine List.flatMap_eq_nil_iff.mpr fun a ha => ?_
  obtain ⟨p, -, rfl⟩ := List.mem_map.mp ha
  rfl

theorem freeActs_allocs (bufs : List (Int × Int)) : allocs (freeActs bufs) = [] := by
  refine List.flatMap_eq_nil_iff.mpr fun a ha => ?_
  obtain ⟨p, -, rfl⟩ := List.mem_map.mp ha
  rfl

theorem freeActs_frees (bufs : List (Int × Int)) :
    frees (freeActs bufs) = (copied bufs).map Prod.snd := by
  rw [frees, freeActs, List.flatMap_map, List.map_eq_flatMap]
  rfl

theorem bufFinishReadVec_run (origBufs newBufs : List Int) (h : List Act)
    (hself : env.cfg.shrBufMethod = .noguard → newBufs = origBufs) :
    bufFinishReadVec env origBufs newBufs h = (.ok (), freeActs (origBufs.zip newBufs)) := by
  unfold bufFinishReadVec
  split
  · exact freeDifferent_run _ h
  · rename_i hguard
    rw [hself (not_not.mp hguard), freeActs, copied_self]
    rfl

def backActs (size : Nat) (bufs : List (Int × Int)) : List Act :=
  (copied bufs).flatMap fun p => [.copy p.2 p.1 size, .freeMem p.2]

theorem bufFinishWriteVec_eq_ok {origBufs newBufs : List Int} {size : Nat} {h acts : List Act}
    (hself : env.cfg.shrBufMethod = .noguard → newBufs = origBufs)
    (hrun : bufFinishWriteVec env origBufs newBufs size h = (.ok (), acts)) :
    acts = backActs size (origBufs.zip newBufs) := by
  unfold bufFinishWriteVec at hrun
  split at hrun
  · rw [backActs, ← flatMap_copied]
    refine (forEach_eq_ok (P := fun _ => True) (fun p _ h' a ha => ?_) hrun).1
    dsimp only at ha
    split at ha
    · obtain ⟨m, -, ha⟩ := lift_bind_eq_ok.mp ha
      obtain ⟨-, ha⟩ := require_bind_eq_ok.mp ha
      cases ha
      exact ⟨(if_pos ‹_›).symm, trivial⟩
    · cases ha
      exact ⟨(if_neg ‹_›).symm, trivial⟩
  · rename_i hguard
    rw [hself (not_not.mp hguard), backActs, copied_self]
    cases hrun
    rfl

theorem backActs_now (me size : Nat) (bufs : List (Int × Int)) :
    OnlyNow (actSteps me (backActs size bufs)) := by
  intro step hstep
  obtain ⟨a, ha, hstep⟩ := List.mem_flatMap.mp hstep
  obtain ⟨p, -, ha⟩ := List.mem_flatMap.mp ha
  rcases List.mem_cons.mp ha with rfl | ha
  · exact ⟨_, List.mem_singleton.mp hstep⟩
  · rw [List.mem_singleton.mp ha] at hstep
    cases hstep

theorem backActs_xfers (me size : Nat) (bufs : List (Int × Int)) :
    actXfers me (backActs size bufs) =
      moveAll (fun x _ => x) size ((copied bufs).map fun p => ((me, p.2), (me, p.1))) := by
  rw [actXfers, actSteps, backActs, List.flatMap_assoc, stepXfers, List.flatMap_assoc, moveAll,
    List.map_map, List.map_eq_flatMap]
  rfl

theorem backActs_allocs (size : Nat) (bufs : List (Int × Int)) : allocs (backActs size bufs) = [] := by
  rw [allocs, backActs, List.flatMap_assoc]
  exact List.flatMap_eq_nil_iff.mpr fun p _ => rfl

theorem backActs_frees (size : Nat) (bufs : List (Int × Int)) :
    frees (backActs size bufs) = (copied bufs).map Prod.snd := by
  rw [frees, backActs, List.flatMap_assoc, List.map_eq_flatMap]
  rfl

-- ------------------------------
-- Vectors
-- ------------------------------

def Giov.transfer (iov : Giov) (kind : RmaKind) (base : BaseType) (fill : List UInt8 → List UInt8)
    (whole : Bool) : Transfer where
  kind := kind
  base := base
  count := iov.bytes / base.size
  fill := fill
  whole := whole
  segs := (localOf kind iov.srcPtrArray iov.dstPtrArray).zip
    (remoteOf kind iov.srcPtrArray iov.dstPtrArray)

theorem SendsAll.of_dispatch (ha : env.Allocs arena) (hp : t.Proper env proc arena)
    (hr : t.InRange env proc mreg)
    (hpos : 0 < t.bytes) {users bufs rems : List Int} (hsegs : t.segs = users.zip rems)
    (hb : bufs.length = users.length) (hlen : users.length = rems.length)
    (hplace : ∀ s ∈ mkSegs users bufs rems,
      s.buf = s.user ∨ block (env.me, s.buf) t.bytes ⊆ scratch env.me arena)
    {overlapping sameAlloc : Bool} {handle : Option Nat} {h acts : List Act}
    (hrun : iovOpDispatch env t.kind (localOf t.kind bufs rems) (remoteOf t.kind bufs rems) t.bytes
      (.predefined t.base) overlapping sameAlloc proc true handle h = (.ok (), acts)) :
    SendsAll env t.kind t.base t.count proc ((mkSegs users bufs rems).map Seg.sent) acts := by
  have hasked : (mkSegs users bufs rems).map Seg.asked = t.segs := by
    rw [hsegs, mkSegs_asked hb hlen]
  exact t.sendsAll hp hr hasked (buf_ne_zero ha hp hpos hasked hplace)
    (mkSegs_map_buf hb hlen) (mkSegs_map_rem hb hlen) hrun

theorem mem_asked {users bufs rems : List Int} {s : Seg} (hs : s ∈ mkSegs users bufs rems)
    (hb : bufs.length = users.length) (hlen : users.length = rems.length)
    (hsegs : t.segs = users.zip rems) : s.asked ∈ t.segs := by
  rw [hsegs, ← mkSegs_asked hb hlen]
  exact List.mem_map_of_mem hs

theorem mem_left_of_zip {users rems : List Int} (hlen : users.length = rems.length) {u : Int}
    (hu : u ∈ users) : ∃ r, (u, r) ∈ users.zip rems := by
  have hmap : (users.zip rems).map Prod.fst = users := List.map_fst_zip hlen.le
  rw [← hmap] at hu
  obtain ⟨p, hp, rfl⟩ := List.mem_map.mp hu
  exact ⟨p.2, hp⟩

theorem Transfer.Proper.users_outside (hp : t.Proper env proc arena) {users rems : List Int}
    (hlen : users.length = rems.length) (hsegs : t.segs = users.zip rems) {size : Nat}
    (hsize : t.bytes = size) :
    ∀ u ∈ users, u ∉ arena ∧ block (env.me, u) size ⊆ (scratch env.me arena)ᶜ := by
  intro u hu
  obtain ⟨r, hmem⟩ := mem_left_of_zip hlen hu
  rw [← hsegs] at hmem
  exact ⟨hp.start _ hmem, hsize ▸ hp.user _ hmem⟩

theorem mem_right_of_zip {users rems : List Int} (hlen : users.length = rems.length) {r : Int}
    (hr : r ∈ rems) : ∃ u, (u, r) ∈ users.zip rems := by
  have hmap : (users.zip rems).map Prod.snd = rems := List.map_snd_zip hlen.ge
  rw [← hmap] at hr
  obtain ⟨p, hp, rfl⟩ := List.mem_map.mp hr
  exact ⟨p.1, hp⟩

theorem Prepared.guard {copyIn : Bool} {size : Nat} {h acts : List Act} {users bufs rems : List Int}
    (hb : bufs.length = users.length) (hlen : users.length = rems.length)
    (hp : Prepared env arena copyIn size h (users.zip bufs) acts) (whole : Bool)
    (hcopy : env.cfg.shrBufMethod = .copy) :
    ∀ s ∈ mkSegs users bufs rems, s.buf = s.user → ∃ s' ∈ mkSegs users bufs rems,
      gmrLookup env s'.user env.me = .ok none ∧ (whole = false → s' = s) := by
  intro s hs heq
  have hmem : (s.user, s.buf) ∈ users.zip bufs :=
    mkSegs_bufs hb hlen ▸ List.mem_map_of_mem (f := fun s : Seg => (s.user, s.buf)) hs
  exact ⟨s, hs, hp.kept hcopy _ hmem heq, fun _ => rfl⟩

variable {iov : Giov} {whole : Bool} {handle : Option Nat} {h acts : List Act}

/-- An entry of `PARMCI_PutV`. -/
theorem putVEntry_does (ha : env.Allocs arena)
    (hp : (iov.transfer .put .byte id whole).Proper env proc arena)
    (hr : (iov.transfer .put .byte id whole).InRange env proc mreg)
    (hnop : ¬ iov.Nop)
    (hrun : putVEntry env proc true handle iov h = (.ok (), acts)) :
    (iov.transfer .put .byte id whole).Does env proc arena acts := by
  have hbytes : (iov.transfer .put .byte id whole).bytes = iov.bytes :=
    (Transfer.bytes_byte rfl).trans (Nat.div_one _)
  have hlen := iov.len_eq
  unfold putVEntry at hrun
  rw [if_neg hnop] at hrun
  obtain ⟨ov, -, hrun⟩ := lift_bind_eq_ok.mp hrun
  obtain ⟨same, -, hrun⟩ := lift_bind_eq_ok.mp hrun
  obtain ⟨bufs, a₁, a, hprep, hrest, rfl⟩ := bind_eq_ok.mp hrun
  obtain ⟨_, a₂, a₃, hdisp, hfin, rfl⟩ := bind_eq_ok.mp hrest
  have huser := hp.users_outside hlen rfl hbytes
  obtain ⟨hb, hprepared, hself⟩ :=
    prepared_bufPrepareReadVec ha (fun u hu => (huser u hu).1) hprep
  rw [bufFinishReadVec_run _ _ _ hself] at hfin
  cases hfin
  have hst : Staged env.me arena 1 iov.bytes id (mkSegs iov.srcPtrArray bufs iov.dstPtrArray) a₁ :=
    Prepared.staged (mkSegs_bufs hb hlen) (by rwa [Nat.mul_one])
      fun s hs => by rw [Nat.mul_one]; exact (huser _ (mem_mkSegs hb hlen hs).1).2
  have hcount : (iov.transfer .put .byte id whole).count = iov.bytes := Nat.div_one _
  have hplace : ∀ s ∈ mkSegs iov.srcPtrArray bufs iov.dstPtrArray,
      s.buf = s.user ∨ block (env.me, s.buf) iov.bytes ⊆ scratch env.me arena := by
    simpa using hst.place
  have hpos : 0 < iov.bytes := Nat.pos_of_ne_zero fun h0 => hnop (.inr h0)
  rw [← hbytes] at hplace hpos hdisp
  have hsends := SendsAll.of_dispatch ha hp hr hpos rfl hb hlen hplace hdisp
  refine SendsAll.does (fun hget => by cases hget) (mkSegs_asked hb hlen) (by rw [hcount]; exact hst) hsends
    (freeActs_steps _ _) ?_
  refine hsends.temps (fun hcopy => hprepared.guard hb hlen whole hcopy) hprepared.mine
    (frees_eq_nil hprepared.noFree) (freeActs_allocs _) ?_
  rw [freeActs_frees, hprepared.allocs]
  rfl

theorem bufAccVec_temps (whole : Bool) (ha : env.Allocs arena) {scale : Scale} {users bufs rems : List Int}
    (hlen : users.length = rems.length) (hb : bufs.length = users.length)
    (hstart : ∀ u ∈ users, u ∉ arena) {size : Nat} (hpos : 0 < size) {contig : Int}
    {a₁ a₃ h' : List Act}
    (hrun : bufPrepareAccVec env users size scale h = (.ok (bufs, contig), a₁))
    (hfin : bufFinishAccVec users bufs contig h' = (.ok (), a₃)) :
    (actSteps env.me a₃ = [] ∧ (∀ p ∈ allocs a₁, p ∈ arena) ∧ frees a₁ = [] ∧ allocs a₃ = [] ∧
      (frees a₃).Perm (allocs a₁)) ∧
      (env.cfg.shrBufMethod = .copy → ∀ s ∈ mkSegs users bufs rems, s.buf = s.user →
        ∃ s' ∈ mkSegs users bufs rems,
          gmrLookup env s'.user env.me = .ok none ∧ (whole = false → s' = s)) := by
  rcases bufPrepareAccVec_eq_ok hrun with ⟨-, hgives, rfl, rfl⟩ | ⟨-, rfl, hread⟩
  · rw [bufFinishAccVec, if_pos hgives.2] at hfin
    cases hfin
    have hscale : ∀ (f : Act → List Int) (k : Nat) (ps : List (Int × Int)),
        (∀ p : Int × Int, f (.scale scale p.1 p.2 k) = []) →
        (ps.map fun p : Int × Int => Act.scale scale p.1 p.2 k).flatMap f = [] := by
      intro f k ps hf
      rw [List.flatMap_map]
      exact List.flatMap_eq_nil_iff.mpr fun p _ => hf p
    have hallocs : allocs (.allocMem contig (users.length * size) ::
        (users.zip (contigBufs contig users.length size)).map fun p =>
          .scale scale p.1 p.2 (scale.iterations (size / scale.base.size))) = [contig] := by
      rw [allocs, List.flatMap_cons, hscale _ _ _ fun _ => rfl]
      rfl
    refine ⟨⟨rfl, ?_, hscale _ _ _ fun _ => rfl, rfl, hallocs ▸ .refl _⟩, fun _ s hs heq => ?_⟩
    · rw [hallocs]
      exact List.forall_mem_singleton.mpr (ha.mem hgives)
    · obtain ⟨hu, hbuf⟩ := mem_mkSegs hb hlen hs
      have hin := contigBufs_subset env.me hbuf
      exact absurd (mem_arena hpos (hin.trans (ha.inside hgives))) (heq ▸ hstart _ hu)
  · obtain ⟨-, hp, -⟩ := prepared_bufPrepareReadVec ha hstart hread
    rw [bufFinishAccVec, if_neg (by simp), freeDifferent_run] at hfin
    cases hfin
    refine ⟨⟨freeActs_steps _ _, hp.mine, frees_eq_nil hp.noFree, freeActs_allocs _, ?_⟩,
      fun hcopy => hp.guard hb hlen whole hcopy⟩
    rw [freeActs_frees, hp.allocs]
    rfl

/-- An entry of `PARMCI_AccV`. -/
theorem accVEntry_does (ha : env.Allocs arena) {scale : Scale} (hunit : scale.unit = scale.base.size)
    (hp : (iov.transfer .acc scale.base scale.applied whole).Proper env proc arena)
    (hr : (iov.transfer .acc scale.base scale.applied whole).InRange env proc mreg)
    (hnop : ¬ iov.Nop)
    (hrun : accVEntry env scale proc true handle iov h = (.ok (), acts)) :
    (iov.transfer .acc scale.base scale.applied whole).Does env proc arena acts := by
  have hlen := iov.len_eq
  unfold accVEntry at hrun
  rw [if_neg hnop] at hrun
  obtain ⟨ov, -, hrun⟩ := lift_bind_eq_ok.mp hrun
  obtain ⟨same, -, hrun⟩ := lift_bind_eq_ok.mp hrun
  obtain ⟨⟨bufs, contig⟩, a₁, a, hprep, hrest, rfl⟩ := bind_eq_ok.mp hrun
  obtain ⟨_, a₂, a₃, hdisp, hfin, rfl⟩ := bind_eq_ok.mp hrest
  -- the dispatch asserts that the bytes are whole elements
  have htype : (Dtype.predefined scale.base).size = scale.base.size := Nat.mul_one _
  have hmod : iov.bytes % scale.base.size = 0 := htype ▸ (require_bind_eq_ok.mp hdisp).1
  have hbytes : (iov.transfer .acc scale.base scale.applied whole).bytes = iov.bytes :=
    Nat.div_mul_cancel (Nat.dvd_of_mod_eq_zero hmod)
  have huser := hp.users_outside hlen rfl hbytes
  have hpos : 0 < iov.bytes := Nat.pos_of_ne_zero fun h0 => hnop (.inr h0)
  have hprep' := hprep
  rw [← hbytes] at hprep'
  obtain ⟨hb, hst⟩ := staged_bufPrepareAccVec ha hunit hlen (fun u hu => (huser u hu).1)
    (fun u hu => (congrArg (block (env.me, u)) hbytes).subset.trans (huser u hu).2) hprep'
  obtain ⟨⟨hsteps, hmine, hfree, halloc, htidy⟩, hguard⟩ := bufAccVec_temps whole ha hlen hb
    (fun u hu => (huser u hu).1) hpos hprep hfin
  rw [← hbytes] at hpos hdisp
  have hsends := SendsAll.of_dispatch ha hp hr hpos rfl hb hlen hst.place hdisp
  exact SendsAll.does (fun hget => by cases hget) (mkSegs_asked hb hlen) hst hsends hsteps
    (hsends.temps hguard hmine hfree halloc htidy)

theorem OnlyNow.eq_nil {s : List (Step Loc UInt8 Rma)} (h : OnlyNow s) (hx : stepXfers s = []) :
    s = [] := by
  cases s with
  | nil => rfl
  | cons step s =>
    obtain ⟨x, rfl⟩ := h step List.mem_cons_self
    cases hx

theorem Placed.bufs_apart {me size : Nat} (hp : Placed me arena size segs)
    (huser : segs.Pairwise fun s s' => Disjoint (block (me, s.user) size) (block (me, s'.user) size)) :
    segs.Pairwise fun s s' => Disjoint (block (me, s.buf) size) (block (me, s'.buf) size) := by
  refine (hp.apart.and huser).imp_of_mem fun {s s'} hs hs' hboth => ?_
  obtain ⟨hapart, hdisj⟩ := hboth
  by_cases h₁ : s.buf = s.user
  · by_cases h₂ : s'.buf = s'.user
    · rw [h₁, h₂]
      exact hdisj
    · rw [h₁]
      exact (disjoint_compl_right.mono ((hp.place s' hs').resolve_left h₂) (hp.user s hs)).symm
  · by_cases h₂ : s'.buf = s'.user
    · rw [h₂]
      exact disjoint_compl_right.mono ((hp.place s hs).resolve_left h₁) (hp.user s' hs')
    · exact hapart h₁ h₂

theorem backEnds_mkSegs (me : Nat) {users bufs rems : List Int} (hb : bufs.length = users.length)
    (hlen : users.length = rems.length) :
    backEnds me (mkSegs users bufs rems) =
      (copied (users.zip bufs)).map fun p => ((me, p.2), (me, p.1)) := by
  rw [copied, ← mkSegs_bufs hb hlen, List.filter_map, List.map_map]
  rfl

theorem Transfer.Proper.users_apart (hp : t.Proper env proc arena) (hkind : t.kind = .get)
    (hsegs : segs.map Seg.asked = t.segs) :
    segs.Pairwise fun s s' =>
      Disjoint (block (env.me, s.user) t.bytes) (block (env.me, s'.user) t.bytes) := by
  have htargets := hp.spread.targets
  rw [← hsegs, hkind, List.map_map, List.pairwise_map] at htargets
  exact htargets

/-- An entry of `PARMCI_GetV`. -/
theorem getVEntry_does (ha : env.Allocs arena)
    (hp : (iov.transfer .get .byte id whole).Proper env proc arena)
    (hr : (iov.transfer .get .byte id whole).InRange env proc mreg)
    (hnop : ¬ iov.Nop)
    (hrun : getVEntry env proc true handle iov h = (.ok (), acts)) :
    (iov.transfer .get .byte id whole).Does env proc arena acts := by
  have hbytes : (iov.transfer .get .byte id whole).bytes = iov.bytes :=
    (Transfer.bytes_byte rfl).trans (Nat.div_one _)
  have hcount : (iov.transfer .get .byte id whole).count = iov.bytes := Nat.div_one _
  have hlen := iov.len_eq.symm
  unfold getVEntry at hrun
  rw [if_neg hnop] at hrun
  obtain ⟨ov, -, hrun⟩ := lift_bind_eq_ok.mp hrun
  obtain ⟨same, -, hrun⟩ := lift_bind_eq_ok.mp hrun
  obtain ⟨bufs, a₁, a, hprep, hrest, rfl⟩ := bind_eq_ok.mp hrun
  obtain ⟨_, a₂, a₃, hdisp, hfin, rfl⟩ := bind_eq_ok.mp hrest
  have huser := hp.users_outside hlen rfl hbytes
  obtain ⟨hb, hprepared, hself⟩ :=
    prepared_bufPrepareWriteVec ha (fun u hu => (huser u hu).1) hprep
  obtain rfl := bufFinishWriteVec_eq_ok hself hfin
  have hasked := mkSegs_asked hb hlen
  have hplaced : Placed env.me arena iov.bytes (mkSegs iov.dstPtrArray bufs iov.srcPtrArray) :=
    hprepared.placed (mkSegs_bufs hb hlen) fun s hs => (huser _ (mem_mkSegs hb hlen hs).1).2
  have hbufs := hplaced.bufs_apart (hbytes ▸ hp.users_apart rfl hasked)
  have hplace := hplaced.place
  have hpos : 0 < iov.bytes := Nat.pos_of_ne_zero fun h0 => hnop (.inr h0)
  rw [← hbytes] at hplace hpos hdisp
  have hsends := SendsAll.of_dispatch ha hp hr hpos rfl hb hlen hplace hdisp
  refine SendsAll.does_get rfl rfl hasked (hcount ▸ hplaced.place) (hcount ▸ hbufs)
    (hprepared.now.eq_nil hprepared.xfers) hsends (backActs_now _ _ _) ?_ ?_
  · rw [backActs_xfers, backEnds_mkSegs _ hb hlen, hcount]
  · refine hsends.temps (fun hcopy => hprepared.guard hb hlen whole hcopy) hprepared.mine
      (frees_eq_nil hprepared.noFree) (backActs_allocs _ _) ?_
    rw [backActs_frees, hprepared.allocs]
    rfl

end

end ArmciMpi
