import ArmciMpi.Transfer.Conservative

/-!
# Overlapping puts

What `PARMCI_PutV` with checks makes of the memory when segments overlap.
`overlapping_puts_iff` says when no two puts of a call that write a common byte
are outstanding together, so that after a fence the memory is that of the
segments one by one: with full flushes, or if nothing overlaps.
-/

namespace ArmciMpi

open Lib Script

-- ------------------------------
-- Its effect
-- ------------------------------

def segMoves (me proc n : Nat) (segs : List (Int × Int)) : List (Xfer Loc UInt8) :=
  segs.map fun seg => move (fun x _ => x) n (me, seg.1) (proc, seg.2)

section
variable {me proc n : Nat}

theorem applyAll_bytes {segs : List (Int × Int)}
    (h : ∀ seg ∈ segs, Disjoint (block (me, seg.1) n) (block (proc, seg.2) n)) (m : Mem) :
    Xfer.applyAll (moveAll (RmaKind.put.fn .byte) BaseType.byte.size
      ((segs.flatMap (segPairs BaseType.byte.size n)).map (RmaKind.put.ends me proc))) m =
      Xfer.applyAll (segMoves me proc n segs) m := by
  induction segs generalizing m with
  | nil => rfl
  | cons seg segs ih =>
    obtain ⟨hfirst, hrest⟩ := List.forall_mem_cons.mp h
    have hspread : Spread n [RmaKind.put.ends me proc seg] :=
      ⟨List.pairwise_singleton _ _, fun e he e' he' => by
        rw [List.mem_singleton.mp he, List.mem_singleton.mp he']
        exact hfirst⟩
    rw [List.flatMap_cons, List.map_append, moveAll_append, Xfer.applyAll_append, ih hrest,
      Transfer.applyAll_segment (by decide) hspread]
    rfl

theorem segMoves_staged {segs : List Seg} {s : Set Loc} {m m' : Mem}
    (hbuf : ∀ x ∈ segs, ∀ y ∈ segs, Disjoint (block (me, x.buf) n) (block (proc, y.rem) n))
    (huser : ∀ x ∈ segs, ∀ y ∈ segs, Disjoint (block (me, x.user) n) (block (proc, y.rem) n))
    (hm : Set.EqOn m' m s)
    (hbytes : ∀ x ∈ segs, bytesAt m' (me, x.buf) n = bytesAt m (me, x.user) n) :
    Set.EqOn (Xfer.applyAll (segMoves me proc n (segs.map Seg.sent)) m')
      (Xfer.applyAll (segMoves me proc n (segs.map Seg.asked)) m) s := by
  induction segs generalizing m m' with
  | nil => exact hm
  | cons x segs ih =>
    have hmem : ∀ y ∈ segs, y ∈ x :: segs := fun y hy => List.mem_cons_of_mem x hy
    refine ih (fun y hy z hz => hbuf y (hmem y hy) z (hmem z hz))
      (fun y hy z hz => huser y (hmem y hy) z (hmem z hz)) (fun l hl => ?_) fun y hy => ?_
    · by_cases hin : l ∈ block (proc, x.rem) n
      · refine eqOn_block ?_ hin
        have hkeeps : KeepsLength n fun x _ => x := fun _ _ hx _ => hx
        have hone := move_bytes hkeeps m' m' (me, x.buf) (proc, x.rem)
        have hone' := move_bytes hkeeps m m (me, x.user) (proc, x.rem)
        exact hone.trans ((hbytes x List.mem_cons_self).trans hone'.symm)
      · exact ((move _ n _ _).frame _ _ l hin).trans
          ((hm hl).trans ((move _ n _ _).frame _ _ l hin).symm)
    · have hkeep := bytesAt_congr ((move (fun x _ => x) n (me, x.buf) (proc, x.rem)).run_eqOn
        (hbuf y (hmem y hy) x List.mem_cons_self).symm m' m')
      have hkeep' := bytesAt_congr ((move (fun x _ => x) n (me, x.user) (proc, x.rem)).run_eqOn
        (huser y (hmem y hy) x List.mem_cons_self).symm m m)
      exact hkeep.trans ((hbytes y (hmem y hy)).trans hkeep'.symm)

end

section
variable {env : Env} {mreg : Gmr} {proc : Nat} {arena : Set Int} {n : Nat} {segs : List Seg}
  {acts : List Act} {win : Win} {g : Nat}

structure SegsOff (env : Env) (proc : Nat) (arena : Set Int) (n : Nat) (segs : List Seg) : Prop where
  sources : ∀ s ∈ segs, ∀ s' ∈ segs, Disjoint (block (env.me, s.user) n) (block (proc, s'.rem) n)
  outside : ∀ s ∈ segs, block (proc, s.rem) n ⊆ (scratch env.me arena)ᶜ

theorem SegsOff.bufs (h : SegsOff env proc arena n segs)
    (hplace : ∀ s ∈ segs, s.buf = s.user ∨ block (env.me, s.buf) (n * 1) ⊆ scratch env.me arena) :
    ∀ s ∈ segs, ∀ s' ∈ segs, Disjoint (block (env.me, s.buf) n) (block (proc, s'.rem) n) := by
  intro s hs s' hs'
  rcases hplace s hs with heq | hin
  · rw [heq]
    exact h.sources s hs s' hs'
  · rw [Nat.mul_one] at hin
    exact disjoint_compl_right.mono hin (h.outside s' hs')

theorem consrvActs_free (hflush : env.cfg.endToEndFlush = true) (hr : Reaches env mreg proc win g)
    {segs : List (Int × Int)} (htakes : ∀ seg ∈ segs, mreg.Takes proc n seg)
    (hdisj : ∀ seg ∈ segs, Disjoint (block (env.me, seg.1) n) (block (proc, seg.2) n)) :
    RaceFree ∅ (actSteps env.me (consrvActs env mreg win proc g n segs)) := by
  have hfull : flushAct env true win g = .flush win g := by simp [flushAct, hflush]
  induction segs with
  | nil => trivial
  | cons seg segs ih =>
    obtain ⟨hfirst, hrest⟩ := List.forall_mem_cons.mp htakes
    obtain ⟨hseg, hdisj⟩ := List.forall_mem_cons.mp hdisj
    have hsends := sends_putOp hr hfirst
    have hcons : consrvActs env mreg win proc g n (seg :: segs) =
        ([.rma (putOp env mreg win proc g n seg)] ++ [.flush win g]) ++
          consrvActs env mreg win proc g n segs := by
      rw [← hfull]
      rfl
    have hspread : Spread (n * 1) ([seg].map (RmaKind.put.ends env.me proc)) := by
      rw [Nat.mul_one]
      refine ⟨List.pairwise_singleton _ _, fun e he e' he' => ?_⟩
      rw [List.mem_singleton.mp he, List.mem_singleton.mp he']
      exact hseg
    have hxfers := (hsends.append (hfull ▸ sends_flush env true)).xfers hr.rank env.me
    rw [hcons, actSteps_append, raceFree_append, hsends.after_flush]
    refine ⟨raceFree_of_indep (fun p hp => hp.elim) ?_, ih hrest hdisj⟩
    rw [← actXfers, hxfers, List.append_nil]
    have helems := hspread.elems.indep (RmaKind.put.fn .byte)
    rwa [List.flatMap_cons, List.flatMap_nil, List.append_nil] at helems

namespace PutEntry

theorem sendCall (h : PutEntry env mreg proc arena n segs acts) (hmem : mreg ∈ env.regions) :
    SendCall env .put .byte n proc arena id segs acts := by
  obtain ⟨a₁, a₂, a₃, win, g, hst, -, hrest, hsends, hr, -, -, -⟩ := h
  exact .mk a₁ a₂ a₃ win g hst hsends hr.rank hrest ⟨mreg, hmem, hr.ok.window⟩

theorem sendOk (hoff : SegsOff env proc arena n segs) (hapart : RemotesApart (remsOf n segs)) :
    SendOk env .put .byte n proc arena id segs where
  kind_ne := by decide
  spread := by
    rw [show n * BaseType.byte.size = n from Nat.mul_one n]
    constructor
    · rw [List.pairwise_map, List.pairwise_map]
      refine (List.pairwise_map.mp hapart).imp fun {s s'} hss => ?_
      exact block_disjoint fun _ => hss
    · intro e he e' he'
      obtain ⟨p, hp, rfl⟩ := List.mem_map.mp he
      obtain ⟨p', hp', rfl⟩ := List.mem_map.mp he'
      obtain ⟨s, hs, rfl⟩ := List.mem_map.mp hp
      obtain ⟨s', hs', rfl⟩ := List.mem_map.mp hp'
      exact hoff.sources s hs s' hs'
  outside := fun s hs => by
    rw [show n * BaseType.byte.size = n from Nat.mul_one n]
    exact hoff.outside s hs
  fill_length := fun _ h => h

theorem free (h : PutEntry env mreg proc arena n segs acts) (hmem : mreg ∈ env.regions)
    (hoff : SegsOff env proc arena n segs) (hflush : env.cfg.endToEndFlush = true) :
    RaceFree ∅ (actSteps env.me acts) ∧ after ∅ (actSteps env.me acts) = ∅ := by
  have hcall := h.sendCall hmem
  refine ⟨?_, hcall.after_empty hflush⟩
  obtain ⟨a₁, a₂, a₃, win, g, hst, -, hrest, hsends, hr, htakes, -, hway⟩ := h
  rcases hway with hapart | hconsrv
  · exact hcall.free (sendOk hoff hapart)
  · rw [actSteps_append, hrest, List.append_nil, actSteps_append, raceFree_append, hst.now.after,
      hconsrv]
    refine ⟨hst.now.raceFree, consrvActs_free hflush hr htakes fun seg hseg => ?_⟩
    obtain ⟨s, hs, rfl⟩ := List.mem_map.mp hseg
    exact hoff.bufs hst.place s hs s hs

theorem effect (h : PutEntry env mreg proc arena n segs acts) (hmem : mreg ∈ env.regions)
    (hoff : SegsOff env proc arena n segs) (m : Mem) :
    Set.EqOn (Xfer.applyAll (actXfers env.me acts) m)
      (Xfer.applyAll (segMoves env.me proc n (segs.map Seg.asked)) m) (scratch env.me arena)ᶜ := by
  obtain ⟨a₁, hst, hxfers⟩ := (h.sendCall hmem).xfers
  have hbufs := hoff.bufs hst.place
  rw [hxfers, Xfer.applyAll_append, applyAll_bytes fun seg hseg => by
    obtain ⟨s, hs, rfl⟩ := List.mem_map.mp hseg
    exact hbufs s hs s hs]
  refine segMoves_staged hbufs hoff.sources (hst.frame m) fun s hs => ?_
  refine List.map_congr_left fun j hj => ?_
  have helem := hst.elems m s hs j (List.mem_range.mp hj)
  simpa [bytesAt, BaseType.size] using helem

end PutEntry

end

-- ------------------------------
-- The whole call
-- ------------------------------

def remotes (gs : List Giov) : List (Int × Nat) :=
  gs.flatMap fun g => g.dstPtrArray.map fun p => (p, g.bytes)

def putMoves (me proc : Nat) (gs : List Giov) : List (Xfer Loc UInt8) :=
  gs.flatMap fun g => segMoves me proc g.bytes (g.srcPtrArray.zip g.dstPtrArray)

/-- What is asked of a vector: its entries are correct, and no segment is read from where
one is written. -/
structure PutsOk (env : Env) (proc : Nat) (arena : Set Int) (mreg : Gmr) (gs : List Giov) : Prop where
  each : ∀ g ∈ gs, EntryOk env proc arena mreg g
  sources : ∀ g ∈ gs, ∀ g' ∈ gs, ∀ u ∈ g.srcPtrArray, ∀ p ∈ g'.dstPtrArray,
    Disjoint (block (env.me, u) g.bytes) (block (proc, p) g'.bytes)

inductive PutRun (env : Env) (mreg : Gmr) (proc : Nat) (arena : Set Int) :
    List Giov → List Act → Prop
  | nil : PutRun env mreg proc arena [] []
  | cons {g gs segs a acts} (hpos : 0 < g.bytes)
      (asked : segs.map Seg.asked = g.srcPtrArray.zip g.dstPtrArray)
      (entry : PutEntry env mreg proc arena g.bytes segs a)
      (rest : PutRun env mreg proc arena gs acts) : PutRun env mreg proc arena (g :: gs) (a ++ acts)

section
variable {env : Env} {mreg : Gmr} {proc : Nat} {arena : Set Int} {gs iov : List Giov}
  {h acts : List Act}

theorem parmciPutV_run (hchecks : env.cfg.iovChecks = true) (ha : env.Allocs arena)
    (hapart : env.SlicesApart proc) (hok : ∀ g ∈ entries iov, EntryOk env proc arena mreg g)
    (hrun : parmciPutV env iov proc h = (.ok (), acts)) :
    PutRun env mreg proc arena (entries iov) acts := by
  induction iov generalizing h acts with
  | nil =>
    cases hrun
    exact .nil
  | cons g iov ih =>
    obtain ⟨_, a, a', hone, hrest, rfl⟩ := bind_eq_ok.mp hrun
    by_cases hnop : g.Nop
    · rw [putVEntry, if_pos hnop] at hone
      cases hone
      rw [entries, List.filter_cons_of_neg (by simpa using hnop)] at hok ⊢
      exact ih hok hrest
    · rw [entries, List.filter_cons_of_pos (by simpa using hnop)] at hok ⊢
      obtain ⟨hfirst, hok⟩ := List.forall_mem_cons.mp hok
      obtain ⟨segs, hasked, hentry⟩ := putVEntry_entry hchecks ha hapart hfirst hnop hone
      exact .cons (Nat.pos_of_ne_zero fun h0 => hnop (.inr h0)) hasked hentry (ih hok hrest)

theorem asked_rem {g : Giov} {segs : List Seg}
    (hasked : segs.map Seg.asked = g.srcPtrArray.zip g.dstPtrArray) :
    segs.map Seg.rem = g.dstPtrArray ∧ segs.map Seg.user = g.srcPtrArray := by
  constructor
  · have hsnd := congrArg (List.map Prod.snd) hasked
    rwa [List.map_map, List.map_snd_zip g.len_eq.ge] at hsnd
  · have hfst := congrArg (List.map Prod.fst) hasked
    rwa [List.map_map, List.map_fst_zip g.len_eq.le] at hfst

theorem PutsOk.off {g : Giov} {segs : List Seg} (hok : PutsOk env proc arena mreg gs) (hg : g ∈ gs)
    (hasked : segs.map Seg.asked = g.srcPtrArray.zip g.dstPtrArray) :
    SegsOff env proc arena g.bytes segs := by
  obtain ⟨hrem, huser⟩ := asked_rem hasked
  have hmem : ∀ s ∈ segs, s.user ∈ g.srcPtrArray ∧ s.rem ∈ g.dstPtrArray := fun s hs =>
    ⟨huser ▸ List.mem_map_of_mem hs, hrem ▸ List.mem_map_of_mem hs⟩
  exact ⟨fun s hs s' hs' => hok.sources g hg g hg _ (hmem s hs).1 _ (hmem s' hs').2,
    fun s hs => (hok.each g hg).outside _ (hmem s hs).2⟩

theorem PutsOk.tail {g : Giov} (hok : PutsOk env proc arena mreg (g :: gs)) :
    PutsOk env proc arena mreg gs :=
  ⟨fun g' hg' => hok.each g' (List.mem_cons_of_mem g hg'), fun g₁ h₁ g₂ h₂ =>
    hok.sources g₁ (List.mem_cons_of_mem g h₁) g₂ (List.mem_cons_of_mem g h₂)⟩

theorem PutsOk.congr (hok : PutsOk env proc arena mreg gs) {m m' : Mem}
    (hm : Set.EqOn m' m (scratch env.me arena)ᶜ) :
    Set.EqOn (Xfer.applyAll (putMoves env.me proc gs) m')
      (Xfer.applyAll (putMoves env.me proc gs) m) (scratch env.me arena)ᶜ := by
  refine Xfer.applyAll_congr (fun x hx => ?_) hm
  obtain ⟨g, hg, hx⟩ := List.mem_flatMap.mp hx
  obtain ⟨seg, hseg, rfl⟩ := List.mem_map.mp hx
  obtain ⟨hu, hp⟩ := List.of_mem_zip hseg
  exact ⟨(hok.each g hg).user _ hu, (hok.each g hg).outside _ hp⟩

namespace PutRun

theorem targets (h : PutRun env mreg proc arena gs acts) :
    (issued acts).flatMap Rma.targetElems = (remotes gs).flatMap fun x => byteAddrs x.1 x.2 := by
  induction h with
  | nil => rfl
  | @cons g gs segs a acts hpos hasked hentry _ ih =>
    have hbytes : segs.flatMap (fun s => byteAddrs s.rem g.bytes) =
        (g.dstPtrArray.map fun p => (p, g.bytes)).flatMap fun x => byteAddrs x.1 x.2 := by
      rw [← (asked_rem hasked).1, List.map_map, List.flatMap_map]
      rfl
    rw [issued_append, List.flatMap_append, hentry.targets, ih, hbytes, ← List.flatMap_append]
    rfl

theorem ops (h : PutRun env mreg proc arena gs acts) :
    ∀ op ∈ issued acts, op.originType.elemSize = 1 ∧ op.targetElems.Nodup := by
  induction h with
  | nil => exact fun op hop => absurd hop List.not_mem_nil
  | cons hpos _ hentry _ ih =>
    intro op hop
    rw [issued_append] at hop
    exact (List.mem_append.mp hop).elim (hentry.ops hpos op) (ih op)

theorem pos (h : PutRun env mreg proc arena gs acts) : ∀ x ∈ remotes gs, 0 < x.2 := by
  induction h with
  | nil => exact fun x hx => absurd hx List.not_mem_nil
  | cons hpos _ _ _ ih =>
    intro x hx
    rw [remotes, List.flatMap_cons] at hx
    rcases List.mem_append.mp hx with hx | hx
    · obtain ⟨p, -, rfl⟩ := List.mem_map.mp hx
      exact hpos
    · exact ih x hx

theorem meets_iff (h : PutRun env mreg proc arena gs acts) :
    ((issued acts).Pairwise fun op op' => ¬ op.Meets op') ↔ RemotesApart (remotes gs) := by
  rw [pairwise_meets_iff (fun op hop => (h.ops op hop).1) fun op hop => (h.ops op hop).2, h.targets,
    nodup_bytes_iff h.pos]

theorem defers (h : PutRun env mreg proc arena gs acts) (hflush : env.cfg.endToEndFlush = false) :
    ∀ a ∈ acts, a.Defers := by
  induction h with
  | nil => exact fun a ha => absurd ha List.not_mem_nil
  | cons _ _ hentry _ ih =>
    exact fun a ha => (List.mem_append.mp ha).elim (hentry.defers hflush a) (ih a)

theorem flushed (h : PutRun env mreg proc arena gs acts) (hflush : env.cfg.endToEndFlush = true) :
    pending .target acts = [] ∧ NeverMeet acts := by
  induction h with
  | nil => exact ⟨rfl, neverMeet_of_issued .nil⟩
  | cons hpos _ hentry _ ih =>
    obtain ⟨hnil, hmeet⟩ := hentry.flushed hpos hflush
    rw [pending_append_of_nil hnil]
    exact ⟨ih.1, hmeet.append hnil ih.2⟩

theorem free (h : PutRun env mreg proc arena gs acts) (hok : PutsOk env proc arena mreg gs)
    (hflush : env.cfg.endToEndFlush = true) :
    RaceFree ∅ (actSteps env.me acts) ∧ after ∅ (actSteps env.me acts) = ∅ := by
  induction h with
  | nil => exact ⟨trivial, rfl⟩
  | @cons g gs segs a acts _ hasked hentry _ ih =>
    obtain ⟨hfree, hafter⟩ := hentry.free (hok.each g List.mem_cons_self).region
      (hok.off List.mem_cons_self hasked) hflush
    rw [actSteps_append, raceFree_append, after_append, hafter]
    exact ⟨⟨hfree, (ih hok.tail).1⟩, (ih hok.tail).2⟩

theorem effect (h : PutRun env mreg proc arena gs acts) (hok : PutsOk env proc arena mreg gs)
    (m : Mem) :
    Set.EqOn (Xfer.applyAll (actXfers env.me acts) m) (Xfer.applyAll (putMoves env.me proc gs) m)
      (scratch env.me arena)ᶜ := by
  induction h generalizing m with
  | nil => exact fun _ _ => rfl
  | @cons g gs segs a acts _ hasked hentry _ ih =>
    have hone := hentry.effect (hok.each g List.mem_cons_self).region
      (hok.off List.mem_cons_self hasked) m
    rw [actXfers_append, Xfer.applyAll_append, putMoves, List.flatMap_cons, Xfer.applyAll_append]
    exact (ih hok.tail _).trans (hok.tail.congr (hasked ▸ hone))

end PutRun

theorem PutsOk.proper {g : Giov} (hok : PutsOk env proc arena mreg gs) (hg : g ∈ gs)
    (hnop : ¬ g.Nop) (hapart : RemotesApart (remotes gs)) :
    (g.transfer .put .byte id false).Proper env proc arena := by
  have hbytes : (g.transfer .put .byte id false).bytes = g.bytes :=
    VecCall.transfer_bytes (v := .put) false (Nat.one_dvd _)
  have hone := hok.each g hg
  have hdst : (g.srcPtrArray.zip g.dstPtrArray).map Prod.snd = g.dstPtrArray :=
    List.map_snd_zip g.len_eq.ge
  refine ⟨.inr rfl, fun hnil => ?_, fun s hs => hone.nonnull _ (List.of_mem_zip hs).1,
    fun s hs => hone.start _ (List.of_mem_zip hs).1, fun s hs => ?_, fun s hs => ?_, ⟨?_, ?_⟩,
    fun _ h => h, fun _ => rfl⟩
  · have hzip : g.srcPtrArray.zip g.dstPtrArray = [] := hnil
    rw [hzip] at hdst
    exact VecCall.put.rems_ne_nil hnop hdst.symm
  · rw [hbytes]
    exact hone.user _ (List.of_mem_zip hs).1
  · rw [hbytes]
    exact hone.outside _ (List.of_mem_zip hs).2
  · have hself := (List.pairwise_flatMap.mp hapart).1 g hg
    rw [← hdst, List.map_map, List.pairwise_map] at hself
    rw [hbytes, List.pairwise_map]
    exact hself.imp fun hss => block_disjoint fun _ => hss
  · intro e he e' he'
    obtain ⟨s, hs, rfl⟩ := List.mem_map.mp he
    obtain ⟨s', hs', rfl⟩ := List.mem_map.mp he'
    rw [hbytes]
    exact hok.sources g hg g hg _ (List.of_mem_zip hs).1 _ (List.of_mem_zip hs').2

theorem parmciPutV_free (ha : env.Allocs arena) (hslices : env.SlicesApart proc)
    (hok : PutsOk env proc arena mreg (entries iov))
    (hapart : RemotesApart (remotes (entries iov)))
    (hrun : parmciPutV env iov proc h = (.ok (), acts)) : RaceFree ∅ (actSteps env.me acts) := by
  have hnop : ∀ g ∈ entries iov, ¬ g.Nop := fun g hg => Call.mem_entries hg
  have hbytes : ∀ g : Giov, (g.transfer .put .byte id false).bytes = g.bytes := fun g =>
    VecCall.transfer_bytes (v := .put) false (Nat.one_dvd _)
  have hcorrect : (Call.putV iov).Correct env proc arena := by
    refine ⟨trivial, fun t ht => ?_, fun t ht => ?_⟩
    · obtain ⟨g, hg, rfl⟩ := List.mem_map.mp ht
      exact hok.proper hg (hnop g hg) hapart
    · obtain ⟨g, hg, rfl⟩ := List.mem_map.mp ht
      exact ⟨mreg, VecCall.inRange_transfer (v := .put) hslices (Nat.one_dvd _) (hnop g hg)
        (hok.each g hg).region (hok.each g hg).holds⟩
  refine (Call.carries ha hcorrect hrun).free (List.pairwise_map.mpr ?_)
  refine (List.pairwise_flatMap.mp hapart).2.imp_of_mem fun {g g'} hg hg' hgg => ?_
  refine .of_disjoint (Set.disjoint_left.mpr ?_) (Set.disjoint_left.mpr ?_)
  · rintro l ⟨s, hs, hl⟩ ⟨s', hs', hl'⟩
    rw [hbytes] at hl hl'
    exact (hok.sources g' hg' g hg _ (List.of_mem_zip hs').1 _ (List.of_mem_zip hs).2).notMem_of_mem_left
      hl' hl
  · rintro l ⟨s, hs, hl⟩ ⟨s', hs', hl'⟩
    rw [hbytes] at hl hl'
    have hss := hgg _ (List.mem_map_of_mem (List.of_mem_zip hs).2) _
      (List.mem_map_of_mem (List.of_mem_zip hs').2)
    have hdisj : Disjoint (block (proc, s.2) g.bytes) (block (proc, s'.2) g'.bytes) :=
      block_disjoint fun _ => hss
    exact hdisj.notMem_of_mem_left hl hl'

theorem parmciFence_xfers {fence : List Act} (hfence : parmciFence env proc h = (.ok (), fence)) :
    actXfers env.me fence = [] := by
  have hemits : Emits (fun a => stepXfers (a.steps env.me) = []) (parmciFence env proc) :=
    emits_forEach fun mreg _ =>
      emits_gmrFlush (fun _ _ => rfl) (fun _ _ => rfl) env mreg proc false
  rw [actXfers, actSteps, stepXfers, List.flatMap_assoc]
  exact List.flatMap_eq_nil_iff.mpr (hemits.mem hfence)

/-- Puts of a vector in one region, however its segments overlap: no two that write a common
byte are outstanding together, and after a fence the memory is that of the segments one by
one, exactly if flushes are full or nothing overlaps. -/
theorem overlapping_puts_iff (hchecks : env.cfg.iovChecks = true) (ha : env.Allocs arena)
    (hslices : env.SlicesApart proc) (hok : PutsOk env proc arena mreg (entries iov))
    (hrun : parmciPutV env iov proc h = (.ok (), acts)) :
    (NeverMeet acts ∧ ∀ fence, parmciFence env proc (h ++ acts) = (.ok (), fence) →
      ∀ m m', Completed env.me (acts ++ fence) m m' →
        Set.EqOn m' (Xfer.applyAll (putMoves env.me proc (entries iov)) m) (scratch env.me arena)ᶜ) ↔
      env.cfg.endToEndFlush = true ∨ RemotesApart (remotes (entries iov)) := by
  have hputs := parmciPutV_run hchecks ha hslices hok.each hrun
  constructor
  · rintro ⟨hmeet, -⟩
    cases hflush : env.cfg.endToEndFlush with
    | true => exact .inl rfl
    | false =>
      right
      have hall := hmeet acts (List.prefix_refl acts)
      rw [pending_eq_issued (hputs.defers hflush)] at hall
      exact hputs.meets_iff.mp hall
  · intro hcond
    have hfree : RaceFree ∅ (actSteps env.me acts) := by
      rcases hcond with hflush | hapart
      · exact (hputs.free hok hflush).1
      · exact parmciPutV_free ha hslices hok hapart hrun
    constructor
    · rcases hcond with hflush | hapart
      · exact (hputs.flushed hflush).2
      · exact neverMeet_of_issued (hputs.meets_iff.mpr hapart)
    · intro fence hfence m m' hdone
      have hnone := parmciFence_xfers hfence
      have hsteps : RaceFree ∅ (actSteps env.me (acts ++ fence)) := by
        rw [actSteps_append, raceFree_append]
        refine ⟨hfree, raceFree_of_indep (fun p _ x hx => ?_) ?_⟩
        · rw [← actXfers, hnone] at hx
          cases hx
        · rw [← actXfers, hnone]
          exact .nil
      rw [hdone.memory hsteps, actXfers_append, hnone, List.append_nil]
      exact hputs.effect hok m

end

-- ------------------------------
-- Two puts to one byte
-- ------------------------------

def twoToOne : Giov := { twoSegments 8192 8192 with bytes := 1 }

theorem pairEnv_apart (cfg : GlobalState) (rank : Fin 2) (gap proc : Nat) :
    (pairEnv cfg rank gap).SlicesApart proc := by
  intro r hr r' hr' ptr _ _
  rw [List.mem_singleton.mp hr, List.mem_singleton.mp hr']

theorem pairEnv_puts (cfg : GlobalState) {g : Giov} (hbytes : g.bytes = 1)
    (hsrc : g.srcPtrArray = [16, 24])
    (hdst : ∀ p ∈ g.dstPtrArray, p = 8192 ∨ p = 8193) :
    PutsOk (pairEnv cfg 0 0) 1 highArena (pairRegion cfg 0) [g] := by
  have hsources : ∀ u ∈ g.srcPtrArray, u = 16 ∨ u = 24 := by
    rw [hsrc]
    decide
  have hlocal : ∀ u ∈ g.srcPtrArray, u ≠ 0 ∧ u ∉ highArena ∧
      block (0, u) g.bytes ⊆ (scratch 0 highArena)ᶜ := by
    intro u hu
    have hlow : 0 < u ∧ u < 100 := by rcases hsources u hu with rfl | rfl <;> decide
    refine ⟨hlow.1.ne', fun hin => ?_, ?_⟩
    · have : (2 ^ 20 : Int) ≤ u := hin
      omega
    · rintro l ⟨-, hle, hlt⟩ ⟨-, hin⟩
      have : (2 ^ 20 : Int) ≤ l.2 := hin
      rw [hbytes] at hlt
      dsimp only at hlt
      omega
  have hother : ∀ p, block (1, p) g.bytes ⊆ (scratch 0 highArena)ᶜ := by
    rintro p l ⟨hl, -, -⟩ ⟨hl', -⟩
    exact absurd (hl.symm.trans hl') (show ¬ (1 : Nat) = 0 by decide)
  refine ⟨List.forall_mem_singleton.mpr ⟨List.mem_cons_self, fun p hp => ?_, fun p _ => hother p,
    fun u hu => (hlocal u hu).1, fun u hu => (hlocal u hu).2.1, fun u hu => (hlocal u hu).2.2⟩, ?_⟩
  · rw [hbytes]
    rcases hdst p hp with rfl | rfl
    · exact ⟨show (8192 : Int) ≤ 8192 by decide, show (8192 : Int) < 8192 + 64 by decide,
        show (8192 : Int) + (1 : Nat) ≤ 8192 + 64 by decide⟩
    · exact ⟨show (8192 : Int) ≤ 8193 by decide, show (8193 : Int) < 8192 + 64 by decide,
        show (8193 : Int) + (1 : Nat) ≤ 8192 + 64 by decide⟩
  · intro g₁ _ g₂ _ u _ p _
    exact block_disjoint fun h => absurd h (show (0 : Nat) ≠ 1 by decide)

def byteMove (src : Int) : Xfer Loc UInt8 := move (fun x _ => x) 1 (0, src) (1, 8192)

def twoToOneOp (src : Int) : Rma :=
  putOp (pairEnv checkedState ⟨0, Nat.two_pos⟩ 0) (pairRegion checkedState ⟨0, Nat.two_pos⟩) pairWin
    1 1 1 (src, 8192)

theorem twoToOneOp_xfers : (twoToOneOp 16).xfers 0 = [byteMove 16] ∧
    (twoToOneOp 24).xfers 0 = [byteMove 24] := ⟨rfl, rfl⟩

/-- What `PARMCI_PutV` and the fence after it do for the two bytes. -/
def twoToOneActs : List Act :=
  [.rma (twoToOneOp 16), .flushLocal pairWin 1, .rma (twoToOneOp 24), .flushLocal pairWin 1]

theorem twoToOne_overtaken (m : Mem) :
    Completed 0 (twoToOneActs ++ [.flush pairWin 1]) m
      (((byteMove 16).hold m).apply (((byteMove 24).hold m).apply m)) := by
  have hpass : ∀ P : List (Flight Loc UInt8 Rma), (∀ p ∈ P, p.fetch = false ∧ p.held = true) →
      ∀ p ∈ P, p.Passes ((Act.flushLocal pairWin 1).Completes .target)
        ((Act.flushLocal pairWin 1).Completes .origin) := by
    intro P hP p hp
    exact ⟨fun h => Side.noConfusion h.1, fun _ => hP p hp⟩
  let loc : Step Loc UInt8 Rma :=
    .wait ((Act.flushLocal pairWin 1).Completes .target) ((Act.flushLocal pairWin 1).Completes .origin)
  have hsteps : actSteps 0 (twoToOneActs ++ [.flush pairWin 1]) =
      [.issue (twoToOneOp 16) false [byteMove 16], loc, .issue (twoToOneOp 24) false [byteMove 24],
        loc, .wait ((Act.flush pairWin 1).Completes .target)
          ((Act.flush pairWin 1).Completes .origin)] := by
    rw [← twoToOneOp_xfers.1, ← twoToOneOp_xfers.2]
    rfl
  let first : Flight Loc UInt8 Rma := ⟨byteMove 16, twoToOneOp 16, false, false⟩
  let second : Flight Loc UInt8 Rma := ⟨byteMove 24, twoToOneOp 24, false, false⟩
  have hfirst : ∀ p ∈ [first.hold m], p.fetch = false ∧ p.held = true :=
    List.forall_mem_singleton.mpr ⟨rfl, rfl⟩
  have hsecond : ∀ p ∈ [first.hold m, second.hold m], p.fetch = false ∧ p.held = true :=
    List.forall_mem_cons.mpr ⟨⟨rfl, rfl⟩, List.forall_mem_singleton.mpr ⟨rfl, rfl⟩⟩
  rw [Completed, hsteps]
  -- both sources are read at once, so that no local flush waits for a write
  refine (Proc.Steps.issue [] (twoToOneOp 16) false [byteMove 16] _).head ?_
  refine (Proc.Steps.read [] first [] _ rfl).head ?_
  refine (Proc.Steps.wait _ _ _ _ (hpass _ hfirst)).head ?_
  refine (Proc.Steps.issue _ (twoToOneOp 24) false [byteMove 24] _).head ?_
  refine (Proc.Steps.read [first.hold m] second [] _ rfl).head ?_
  refine (Proc.Steps.wait _ _ _ _ (hpass _ hsecond)).head ?_
  refine (Proc.Steps.write [first.hold m] (second.hold m) [] _ rfl).head ?_
  refine (Proc.Steps.write [] (first.hold m) [] _ rfl).head ?_
  exact (Proc.Steps.wait [] _ _ [] (List.forall_mem_nil _)).head .refl

/-- The byte of the first segment is what a fence leaves. -/
theorem overlapping_puts_reordered :
    (pairEnv checkedState 0 0).cfg.iovChecks = true ∧
      (pairEnv checkedState 0 0).cfg.endToEndFlush = false ∧
      (pairEnv checkedState 0 0).Allocs highArena ∧
      (pairEnv checkedState 0 0).SlicesApart 1 ∧
      PutsOk (pairEnv checkedState 0 0) 1 highArena (pairRegion checkedState 0)
        (entries [twoToOne]) ∧
      parmciPutV (pairEnv checkedState 0 0) [twoToOne] 1 [] = (.ok (), twoToOneActs) ∧
      ¬ NeverMeet twoToOneActs ∧
      parmciFence (pairEnv checkedState 0 0) 1 twoToOneActs = (.ok (), [.flush pairWin 1]) ∧
      ∃ m m', Completed 0 (twoToOneActs ++ [.flush pairWin 1]) m m' ∧ m' (1, 8192) = 1 ∧
        Xfer.applyAll (putMoves 0 1 (entries [twoToOne])) m (1, 8192) = 0 := by
  refine ⟨rfl, rfl, pairEnv_allocs .., pairEnv_apart _ _ _ _, ?_, rfl, ?_, rfl,
    fun l => if l = (0, 16) then 1 else 0, _, twoToOne_overtaken _, rfl, rfl⟩
  · exact pairEnv_puts checkedState rfl rfl (by decide)
  · intro hnever
    have hpair := hnever _ (List.prefix_refl _)
    have hpending : pending .target twoToOneActs = [twoToOneOp 16, twoToOneOp 24] := rfl
    rw [hpending, List.pairwise_pair] at hpair
    exact hpair ⟨8192, List.mem_cons_self, 8192, List.mem_cons_self, by decide, by decide⟩

def flushedState : GlobalState := { checkedState with endToEndFlush := true }

/-- With full flushes the byte of the second segment is what a fence leaves. -/
theorem overlapping_puts_iff_twoToOne :
    ¬ RemotesApart (remotes (entries [twoToOne])) ∧
    ∃ acts, parmciPutV (pairEnv flushedState 0 0) [twoToOne] 1 [] = (.ok (), acts) ∧
      NeverMeet acts ∧
      ∀ fence, parmciFence (pairEnv flushedState 0 0) 1 acts = (.ok (), fence) → ∀ m m',
        Completed 0 (acts ++ fence) m m' →
          Set.EqOn m' (Xfer.applyAll (putMoves 0 1 (entries [twoToOne])) m)
            (scratch 0 highArena)ᶜ := by
  have hok : PutsOk (pairEnv flushedState 0 0) 1 highArena (pairRegion flushedState 0)
      (entries [twoToOne]) := pairEnv_puts flushedState rfl rfl (by decide)
  refine ⟨fun hapart => ?_, _, rfl, (overlapping_puts_iff (h := []) rfl (pairEnv_allocs ..)
    (pairEnv_apart _ _ _ _) hok rfl).mpr (.inl rfl)⟩
  exact absurd (List.pairwise_pair.mp hapart) (by decide)

end ArmciMpi
