import ArmciMpi.Lib.Isolation
import ArmciMpi.Transfer.Calls

/-!
# A flag after the data

`PARMCI_Put_flag` and `PARMCI_PutS_flag` put data, fence the process and put a
flag. The put of the data may return with its operations in flight; the fence
flushes every live region, so that the region of the data is among them.
`flag_follows_data` says that whoever sees the flag sees the data, at every
point of every run, also when other processes and earlier operations are under
way elsewhere.

A put that aborts on the way has written to no memory of the caller or of the
target (`parmciPutS_outcome`), and the flag is not put then.
-/

namespace ArmciMpi

open Lib Script

/-- `value` is the address of the argument that holds the value. -/
def parmciPutFlag (env : Env) (src dst : Int) (size : Nat) (flag value : Int) (proc : Nat) :
    Script Act Int := do
  parmciPut env src dst size proc
  parmciFence env proc
  parmciPut env value flag BaseType.int.size proc
  return 0

def parmciPutSFlag (env : Env) (src : Int) (srcStride : Nat → Int) (dst : Int)
    (dstStride : Nat → Int) (count : Nat → Nat) (strideLevels : Nat) (flag value : Int)
    (proc : Nat) : Script Act Int := do
  parmciPutS env src srcStride dst dstStride count strideLevels proc
  parmciFence env proc
  parmciPut env value flag BaseType.int.size proc
  return 1

inductive FlagCall
  | put (src dst : Int) (size : Nat)
  | putS (src : Int) (srcStride : Nat → Int) (dst : Int) (dstStride : Nat → Int)
      (count : Nat → Nat) (levels : Nat)

namespace FlagCall

def run (env : Env) (flag value : Int) (proc : Nat) : FlagCall → Script Act Int
  | put src dst size => parmciPutFlag env src dst size flag value proc
  | putS src srcStride dst dstStride count levels =>
    parmciPutSFlag env src srcStride dst dstStride count levels flag value proc

def data : FlagCall → Call
  | put src dst size => .put src dst size
  | putS src srcStride dst dstStride count levels =>
    .putS src srcStride dst dstStride count levels

def transfer : FlagCall → Transfer
  | put src dst size => putTransfer src dst size
  | putS src srcStride dst dstStride count levels =>
    putSTransfer src srcStride dst dstStride count levels

def code : FlagCall → Int
  | put .. => 0
  | putS .. => 1

theorem run_eq (env : Env) (flag value : Int) (proc : Nat) (c : FlagCall) :
    c.run env flag value proc = do
      c.data.run env proc
      parmciFence env proc
      parmciPut env value flag BaseType.int.size proc
      return c.code := by
  cases c <;> rfl

theorem data_transfers (c : FlagCall) : c.data.transfers = [c.transfer] := by
  cases c <;> rfl

end FlagCall

-- ------------------------------
-- Aborts
-- ------------------------------

section
variable {env : Env} {proc : Nat} {arena : Set Int} {mreg : Gmr}

/-- The actions copy the sources of a transfer to temporary buffers, at most. -/
def Preparing (env : Env) (proc : Nat) (arena : Set Int) (t : Transfer) (acts : List Act) : Prop :=
  ∀ x ∈ actXfers env.me acts, x.src ⊆ t.sources env.me proc ∧ x.dst ⊆ scratch env.me arena

theorem putVEntry_outcome {iov : Giov} {whole : Bool} (ha : env.Allocs arena)
    (hp : (iov.transfer .put .byte id whole).Proper env proc arena)
    (hr : (iov.transfer .put .byte id whole).InRange env proc mreg) (hnop : ¬ iov.Nop)
    (h : List Act) :
    (putVEntry env proc true none iov).Returns h ∨
      Preparing env proc arena (iov.transfer .put .byte id whole)
        (putVEntry env proc true none iov h).2 := by
  have hbytes : (iov.transfer .put .byte id whole).bytes = iov.bytes :=
    (Transfer.bytes_byte rfl).trans (Nat.div_one _)
  have hpos : 0 < iov.bytes := Nat.pos_of_ne_zero fun h0 => hnop (.inr h0)
  have hlen := iov.len_eq
  obtain ⟨same, hsame⟩ := iovCheckSameAllocation_returns env iov.dstPtrArray hr.proc_lt
  unfold putVEntry
  rw [if_neg hnop, iovCheckOverlap_apart env hpos (VecCall.dst_apart (v := .put) (Nat.one_dvd _) hp),
    lift_ok_bind, hsame, lift_ok_bind]
  obtain ⟨bufs, hok⟩ := returns_bufPrepareReadVec ha iov.srcPtrArray hpos h
  obtain ⟨a, hprep⟩ : ∃ a, bufPrepareReadVec env iov.srcPtrArray iov.bytes h = (.ok bufs, a) :=
    ⟨_, Prod.ext hok rfl⟩
  have huser := hp.users_outside hlen rfl hbytes
  obtain ⟨hb, hprepared, hself⟩ := prepared_bufPrepareReadVec ha (fun u hu => (huser u hu).1) hprep
  have hst : Staged env.me arena 1 iov.bytes id (mkSegs iov.srcPtrArray bufs iov.dstPtrArray) a :=
    Prepared.staged (mkSegs_bufs hb hlen) (by rwa [Nat.mul_one])
      fun s hs => by rw [Nat.mul_one]; exact (huser _ (mem_mkSegs hb hlen hs).1).2
  have hasked := mkSegs_asked hb hlen
  have hbuf := buf_ne_zero ha hp (hbytes ▸ hpos) hasked (by simpa [hbytes] using hst.place)
  have hsegs := Transfer.segsOk hp hr hasked hbuf
  rw [mkSegs_map_buf hb hlen, mkSegs_map_rem hb hlen] at hsegs
  have hcases : (∃ e, iovOpDispatch env .put bufs iov.dstPtrArray iov.bytes (.predefined .byte) false
        same proc true none (h ++ a) = (.error e, [])) ∨
      ∃ a', iovOpDispatch env .put bufs iov.dstPtrArray iov.bytes (.predefined .byte) false same proc
        true none (h ++ a) = (.ok (), a') := by
    rw [← hbytes]
    exact (iovOpDispatch_cases hsegs (h ++ a)).imp_right fun ⟨a', hsent, _⟩ => ⟨a', hsent⟩
  rcases hcases with ⟨e, herr⟩ | ⟨a', hsent⟩
  · right
    rw [bind_ok hprep (bind_error herr), List.append_nil]
    intro x hx
    obtain ⟨hdst, hsrc⟩ := hst.foot x hx
    refine ⟨fun l hl => ?_, hdst⟩
    obtain ⟨s, hs, hl⟩ := hsrc hl
    rw [Nat.mul_one, ← hbytes] at hl
    exact ⟨s.asked, mem_asked hs hb hlen rfl, hl⟩
  · left
    exact returns_of_ok (bind_ok hprep (bind_ok hsent (bufFinishReadVec_run _ _ _ hself)))

theorem parmciPutS_outcome {src dst : Int} {srcStride dstStride : Nat → Int} {count : Nat → Nat}
    {levels : Nat} (ha : env.Allocs arena)
    (hp : (putSTransfer src srcStride dst dstStride count levels).Proper env proc arena)
    (hr : (putSTransfer src srcStride dst dstStride count levels).InRange env proc mreg)
    (hsrc : StridedOk srcStride count levels 1) (hdst : StridedOk dstStride count levels 1)
    (h : List Act) :
    (parmciPutS env src srcStride dst dstStride count levels proc).Returns h ∨
      Preparing env proc arena (putSTransfer src srcStride dst dstStride count levels)
        (parmciPutS env src srcStride dst dstStride count levels proc h).2 := by
  by_cases hm : env.cfg.stridedMethod = .direct
  · exact .inl (returns_parmciPutS ha hp hr hsrc hdst h fun hne => absurd hm hne)
  · obtain ⟨iov, hiov, hnop, -, htrans⟩ :=
      stridedToIov_transfer src srcStride dst dstStride hsrc.pos
    have heq : iov.transfer .put .byte id true =
        putSTransfer src srcStride dst dstStride count levels := htrans .put
    rw [← heq] at hp hr
    have hcall : parmciPutS env src srcStride dst dstStride count levels proc =
        parmciPutV env [iov] proc := by
      rw [parmciPutS, if_neg hm, hiov, lift_ok_bind]
    have hone : parmciPutV env [iov] proc h = putVEntry env proc true none iov h := by
      show (putVEntry env proc true none iov >>= fun _ => pure ()) h = _
      cases hrun : putVEntry env proc true none iov h with
      | mk r a =>
        cases r with
        | error e => exact bind_error hrun
        | ok x => exact (bind_ok hrun rfl).trans (by rw [List.append_nil])
    rw [hcall, Returns, hone, ← heq]
    exact putVEntry_outcome ha hp hr hnop h

theorem parmciPut_outcome {src dst : Int} {size : Nat}
    (hp : (putTransfer src dst size).Proper env proc arena)
    (hr : (putTransfer src dst size).InRange env proc mreg) (h : List Act) :
    (parmciPut env src dst size proc).Returns h ∨
      Preparing env proc arena (putTransfer src dst size) (parmciPut env src dst size proc h).2 := by
  by_cases hnull : env.allocMem h size = 0
  · have hlook : gmrLookup env dst proc = .ok (some mreg) := hr.region
    have hmem : (src, dst) ∈ (putTransfer src dst size).segs := List.mem_cons_self
    obtain ⟨r, hguard⟩ := guardLookup_returns env src
    rw [parmciPut, hlook, lift_ok_bind, hguard, lift_ok_bind, found, lift_ok_bind]
    split
    · exact .inl ⟨(), rfl⟩
    · split
      · refine .inl (returns_bind ?_ fun _ _ _ => returns_gmrFlush hlook _ _)
        exact returns_segment .put (b := .byte) (.inr rfl) (hp.nonnull _ hmem) hlook
          (hr.holds _ hmem) h
      · refine .inr ?_
        rw [bind_error (allocMem_null hnull _)]
        exact fun x hx => absurd hx List.not_mem_nil
  · exact .inl (returns_parmciPut hnull hp hr)

end

-- ------------------------------
-- The fence
-- ------------------------------

section
variable {env : Env} {proc : Nat} {arena : Set Int}

def fenceActs (env : Env) (proc : Nat) : List Act := env.regions.flatMap (flushOf env proc false)

theorem fenceActs_flush {a : Act} (ha : a ∈ fenceActs env proc) : ∃ win t, a = .flush win t := by
  obtain ⟨mreg, -, ha⟩ := List.mem_flatMap.mp ha
  unfold flushOf at ha
  split at ha
  · rename_i win _
    cases hg : win.comm.rankOf proc with
    | none => simp [hg] at ha
    | some g =>
      simp only [hg, Option.map_some, Option.toList_some, List.mem_singleton] at ha
      exact ⟨win, g, ha⟩
  · cases ha

theorem fenceActs_waits (me : Nat) :
    ∀ step ∈ actSteps me (fenceActs env proc), ∃ full loc, step = .wait full loc := by
  intro step hstep
  obtain ⟨a, ha, hstep⟩ := List.mem_flatMap.mp hstep
  obtain ⟨win, t, rfl⟩ := fenceActs_flush ha
  exact ⟨_, _, List.mem_singleton.mp hstep⟩

theorem fenceActs_xfers (me : Nat) : actXfers me (fenceActs env proc) = [] := by
  refine List.flatMap_eq_nil_iff.mpr fun step hstep => ?_
  obtain ⟨full, loc, rfl⟩ := fenceActs_waits me step hstep
  rfl

theorem Transfer.Does.after_fence {t : Transfer} {acts : List Act} (h : t.Does env proc arena acts) :
    after ∅ (actSteps env.me (acts ++ fenceActs env proc)) = ∅ := by
  refine Set.eq_empty_iff_forall_notMem.mpr fun q hq => ?_
  rw [actSteps_append, after_append] at hq
  obtain ⟨⟨p, hp, hof⟩, hwait⟩ := after_waits (fenceActs_waits env.me) hq
  have hkey : q.key = p.key := by
    obtain rfl | ⟨a, rfl⟩ := hof <;> rfl
  cases h with
  | send segs hsegs hkind htemps hcall =>
    -- what is in flight was sent on a live window, which the fence flushes
    obtain ⟨win, g, hon, hrank, mreg, hmem, hwin⟩ := hcall.after_on hp
    have hflush : .flush win g ∈ fenceActs env proc :=
      List.mem_flatMap.mpr ⟨mreg, hmem, by simp [flushOf, hwin, hrank, flushAct]⟩
    exact hwait _ _ (List.mem_flatMap.mpr ⟨_, hflush, List.mem_singleton_self _⟩) (hkey ▸ hon)
  | get segs hsegs hkind hplace hbufs htemps hcall =>
    rw [hcall.after_empty] at hp
    exact hp
  | copy => exact hp

end

-- ------------------------------
-- Data and flag
-- ------------------------------

theorem Transfer.Proper.effect_put {env : Env} {proc : Nat} {arena : Set Int} {t : Transfer}
    (hp : t.Proper env proc arena) (hkind : t.kind = .put) (hfill : t.fill = id) {s : Int × Int}
    (hs : s ∈ t.segs) (m : Mem) :
    bytesAt (Xfer.applyAll (t.effect env.me proc) m) (proc, s.2) t.bytes =
      bytesAt m (env.me, s.1) t.bytes := by
  have hbase := hp.base_get (by rw [hkind]; decide)
  rw [Transfer.bytes_byte hbase]
  refine List.map_congr_left fun j hj => ?_
  have hmem : (Loc.shift (env.me, s.1) (j * t.base.size), Loc.shift (proc, s.2) (j * t.base.size)) ∈
      t.ends env.me proc := by
    refine mem_elems.mpr ⟨s, hs, j, List.mem_range.mp hj, ?_⟩
    rw [hkind]
    rfl
  have hbytes := hp.effect_bytes hmem m
  rw [hbase, hkind, hfill] at hbytes
  simpa [bytesAt, RmaKind.fn, BaseType.size, Loc.shift] using hbytes

section
variable {env : Env} {proc : Nat} {arena : Set Int} {t f : Transfer} {acts acts' : List Act}

/-- Before the last part of the program starts its targets are as they were; then all of
the first part is done. -/
theorem seen_after_fence (hd : t.Does env proc arena acts) (hp : t.Proper env proc arena)
    (hfd : f.Does env proc arena acts') (hfp : f.Proper env proc arena)
    (hdisj : Disjoint (f.targets env.me proc) (t.targets env.me proc)) {m m' : Mem}
    {p : Proc Loc UInt8 Rma}
    (hrun : Relation.ReflTransGen ProcStep
      (m, ⟨[], actSteps env.me (acts ++ fenceActs env proc ++ acts')⟩) (m', p)) :
    Set.EqOn m' m (f.targets env.me proc) ∨
      Set.EqOn m' (Xfer.applyAll (t.effect env.me proc) m) (t.targets env.me proc) := by
  have hoff : ∀ {u v : Transfer} {a : List Act}, u.Does env proc arena a →
      u.Proper env proc arena → v.Proper env proc arena →
      Disjoint (u.targets env.me proc) (v.targets env.me proc) →
      ∀ x ∈ actXfers env.me a, Disjoint x.dst (v.targets env.me proc) := by
    intro u v a hu hup hvp hdisj x hx
    rcases (hu.foot hup hx).2 with hscratch | hwrites
    · exact disjoint_compl_right.mono hscratch hvp.targets_subset
    · exact hdisj.mono_left hwrites.dst
  have hxfers : actXfers env.me (acts ++ fenceActs env proc) = actXfers env.me acts := by
    rw [actXfers_append, fenceActs_xfers, List.append_nil]
  rw [actSteps_append] at hrun
  by_cases hrest : actSteps env.me acts' <:+ p.rest
  · left
    obtain ⟨P, rest⟩ := p
    obtain ⟨r, rfl⟩ := hrest
    refine run_frame (run_part hrun) fun x hx => hoff hd hp hfp hdisj.symm x ?_
    rw [← hxfers]
    exact hx
  · right
    obtain ⟨m₁, P₁, hto, hfrom⟩ := run_through hrun hrest
    have hfree : RaceFree ∅ (actSteps env.me (acts ++ fenceActs env proc)) := by
      rw [actSteps_append, raceFree_append]
      have hnone : stepXfers (actSteps env.me (fenceActs env proc)) = [] := fenceActs_xfers env.me
      exact ⟨hd.free hp, raceFree_of_indep (by simp [hnone]) (by simp [hnone])⟩
    obtain ⟨rfl, rfl⟩ := run_part_done hto hfree hd.after_fence
    have hkept := run_frame hfrom (s := t.targets env.me proc) fun x hx => hoff hfd hfp hp hdisj x hx
    refine hkept.trans ?_
    show Set.EqOn (Xfer.applyAll (actXfers env.me (acts ++ fenceActs env proc)) m) _ _
    rw [hxfers]
    exact (hd.effect_eqOn hp m).mono hp.targets_subset

end

def FlagCall.space (env : Env) (flag value : Int) (proc : Nat) (arena : Set Int) (c : FlagCall) :
    Set Loc :=
  scratch env.me arena ∪ (c.transfer.sources env.me proc ∪ c.transfer.targets env.me proc) ∪
    (block (env.me, value) BaseType.int.size ∪ block (proc, flag) BaseType.int.size)

section
variable {env : Env} {proc : Nat} {arena : Set Int} {c : FlagCall} {flag value : Int}

def flagTransfer (flag value : Int) : Transfer := putTransfer value flag BaseType.int.size

theorem flagTransfer_targets (me : Nat) :
    (flagTransfer flag value).targets me proc = block (proc, flag) BaseType.int.size := by
  ext l
  simp [Transfer.targets, flagTransfer, putTransfer, single, Transfer.bytes, RmaKind.ends,
    BaseType.size]

theorem flagTransfer_sources (me : Nat) :
    (flagTransfer flag value).sources me proc = block (me, value) BaseType.int.size := by
  ext l
  simp [Transfer.sources, flagTransfer, putTransfer, single, Transfer.bytes, RmaKind.ends,
    BaseType.size]

theorem Transfer.Does.within {t : Transfer} {acts : List Act} (h : t.Does env proc arena acts)
    (hp : t.Proper env proc arena) {s : Set Loc} (hscratch : scratch env.me arena ⊆ s)
    (hsources : t.sources env.me proc ⊆ s) (htargets : t.targets env.me proc ⊆ s) :
    ∀ x ∈ actXfers env.me acts, x.src ⊆ s ∧ x.dst ⊆ s := by
  intro x hx
  obtain ⟨hsrc, hdst⟩ := h.foot hp hx
  refine ⟨hsrc.trans (Set.union_subset hsources hscratch), ?_⟩
  rcases hdst with hdst | hdst
  · exact hdst.trans hscratch
  · exact hdst.dst.trans htargets

theorem FlagCall.outcome (hreach : env.AllReach proc) (ha : env.Allocs arena)
    (hc : c.data.Correct env proc arena)
    (hflag : (Call.put value flag BaseType.int.size).Correct env proc arena) (h : List Act) :
    (∃ a a', c.run env flag value proc h = (.ok c.code, a ++ fenceActs env proc ++ a') ∧
      c.transfer.Does env proc arena a ∧ (flagTransfer flag value).Does env proc arena a') ∨
    (¬ (c.data.run env proc).Returns h ∧
      Preparing env proc arena c.transfer (c.run env flag value proc h).2) := by
  obtain ⟨hfp, fmreg, hfr⟩ := hflag.one rfl
  obtain ⟨hp, mreg, hr⟩ := hc.one c.data_transfers
  cases hrun : c.data.run env proc h with
  | mk r a =>
    cases r with
    | ok =>
      left
      have hdoes : c.transfer.Does env proc arena a := by
        cases c with
        | put src dst size => exact parmciPut_does ha hp hr hrun
        | putS src srcStride dst dstStride count levels =>
          exact parmciPutS_does ha hp hr hc.shaped.1 hc.shaped.2 hrun
      have hfence := flushEach_ok hreach false (h ++ a)
      obtain ⟨_, hok⟩ := returns_parmciPut (h := h ++ a ++ fenceActs env proc)
        (ha.canAlloc BaseType.int.size (by decide) _) hfp hfr
      obtain ⟨a', hput⟩ : ∃ a', parmciPut env value flag BaseType.int.size proc
          (h ++ a ++ fenceActs env proc) = (.ok (), a') := ⟨_, Prod.ext hok rfl⟩
      refine ⟨a, a', ?_, hdoes, parmciPut_does ha hfp hfr hput⟩
      rw [c.run_eq]
      refine (bind_ok hrun (bind_ok hfence (bind_ok hput rfl))).trans ?_
      rw [List.append_nil, List.append_assoc]
      rfl
    | error e =>
      right
      have hnot : ¬ (c.data.run env proc).Returns h := not_returns_of_error hrun
      rw [c.run_eq, bind_error hrun]
      refine ⟨hnot, ?_⟩
      cases c with
      | put src dst size =>
        have houtcome := (parmciPut_outcome hp hr h).resolve_left hnot
        rwa [show parmciPut env src dst size proc h = (.error e, a) from hrun] at houtcome
      | putS src srcStride dst dstStride count levels =>
        have houtcome := (parmciPutS_outcome ha hp hr hc.shaped.1 hc.shaped.2 h).resolve_left hnot
        rwa [show parmciPutS env src srcStride dst dstStride count levels proc h = (.error e, a)
          from hrun] at houtcome

theorem FlagCall.within (hreach : env.AllReach proc) (ha : env.Allocs arena)
    (hc : c.data.Correct env proc arena)
    (hflag : (Call.put value flag BaseType.int.size).Correct env proc arena) (h : List Act) :
    ∀ x ∈ actXfers env.me (c.run env flag value proc h).2,
      x.src ⊆ c.space env flag value proc arena ∧ x.dst ⊆ c.space env flag value proc arena := by
  obtain ⟨hp, -⟩ := hc.one c.data_transfers
  obtain ⟨hfp, -⟩ := hflag.one rfl
  have hscratch : scratch env.me arena ⊆ c.space env flag value proc arena :=
    fun l hl => .inl (.inl hl)
  have hsources : c.transfer.sources env.me proc ⊆ c.space env flag value proc arena :=
    fun l hl => .inl (.inr (.inl hl))
  rcases FlagCall.outcome hreach ha hc hflag h with ⟨a, a', hrun, hd, hfd⟩ | ⟨-, hprep⟩
  · intro x hx
    rw [hrun, actXfers_append, actXfers_append, fenceActs_xfers, List.append_nil] at hx
    rcases List.mem_append.mp hx with hx | hx
    · exact hd.within hp hscratch hsources (fun l hl => .inl (.inr (.inr hl))) x hx
    · refine hfd.within hfp hscratch (fun l hl => ?_) (fun l hl => ?_) x hx
      · exact .inr (.inl (flagTransfer_sources env.me ▸ hl))
      · exact .inr (.inr (flagTransfer_targets env.me ▸ hl))
  · intro x hx
    obtain ⟨hsrc, hdst⟩ := hprep x hx
    exact ⟨hsrc.trans hsources, hdst.trans hscratch⟩

theorem FlagCall.alone (hreach : env.AllReach proc) (ha : env.Allocs arena)
    (hc : c.data.Correct env proc arena)
    (hflag : (Call.put value flag BaseType.int.size).Correct env proc arena)
    (hdisj : Disjoint (block (proc, flag) BaseType.int.size) (c.transfer.targets env.me proc))
    {h : List Act} {m m' : Mem} {p : Proc Loc UInt8 Rma}
    (hrun : Relation.ReflTransGen ProcStep
      (m, ⟨[], actSteps env.me (c.run env flag value proc h).2⟩) (m', p)) :
    Set.EqOn m' m (block (proc, flag) BaseType.int.size) ∨
      Set.EqOn m' (Xfer.applyAll (c.transfer.effect env.me proc) m) (c.transfer.targets env.me proc) := by
  obtain ⟨hp, -⟩ := hc.one c.data_transfers
  obtain ⟨hfp, -⟩ := hflag.one rfl
  rw [← flagTransfer_targets env.me] at hdisj ⊢
  rcases FlagCall.outcome hreach ha hc hflag h with ⟨a, a', hcall, hd, hfd⟩ | ⟨-, hprep⟩
  · rw [hcall] at hrun
    exact seen_after_fence hd hp hfd hfp hdisj hrun
  · refine .inl (run_frame hrun fun x hx => ?_)
    exact disjoint_compl_right.mono (hprep x hx).2 (Transfer.Proper.targets_subset hfp)

/-- Whenever the flag has its new value, all of the data has arrived: at every point of every
run of the call, beside other processes and earlier operations that do not write to the
memory the call works with. The call returns if the distances in its data fit. -/
theorem flag_follows_data (hreach : env.AllReach proc) (ha : env.Allocs arena)
    (hc : c.data.Correct env proc arena)
    (hflag : (Call.put value flag BaseType.int.size).Correct env proc arena)
    (hdisj : Disjoint (block (proc, flag) BaseType.int.size) (c.transfer.targets env.me proc))
    (h : List Act) :
    (c.data.Feasible env proc (c.data.run env proc h).2 → (c.run env flag value proc).Returns h) ∧
    ∀ (m m' : Mem) (ps qs sys : List (Proc Loc UInt8 Rma)) (P : List (Flight Loc UInt8 Rma)),
      (∀ q ∈ ps ++ qs, ∀ x ∈ q.xfers, Disjoint x.dst (c.space env flag value proc arena)) →
      (∀ q ∈ P, Disjoint q.x.dst (c.space env flag value proc arena)) →
      Relation.ReflTransGen SysStep
        (m, ps ++ ⟨P, actSteps env.me (c.run env flag value proc h).2⟩ :: qs) (m', sys) →
      bytesAt m (proc, flag) BaseType.int.size ≠ bytesAt m (env.me, value) BaseType.int.size →
      bytesAt m' (proc, flag) BaseType.int.size = bytesAt m (env.me, value) BaseType.int.size →
      ∀ s ∈ c.transfer.segs, bytesAt m' (proc, s.2) c.transfer.bytes =
        bytesAt m (env.me, s.1) c.transfer.bytes := by
  obtain ⟨hp, -⟩ := hc.one c.data_transfers
  constructor
  · intro hf
    rcases FlagCall.outcome hreach ha hc hflag h with ⟨a, a', hrun, -⟩ | ⟨hnot, -⟩
    · exact returns_of_ok hrun
    · exact absurd (Call.returns ha hc h hf) hnot
  · intro m m' ps qs sys P hothers hbefore hsys hold hnew s hs
    rw [← List.append_nil P] at hsys
    obtain ⟨n, p, hrun, heq⟩ := run_isolated hsys
      (FlagCall.within hreach ha hc hflag h) hbefore hothers (Set.eqOn_refl m _)
    have hkind : c.transfer.kind = .put ∧ c.transfer.fill = id := by cases c <;> exact ⟨rfl, rfl⟩
    have hdata : block (proc, s.2) c.transfer.bytes ⊆ c.transfer.targets env.me proc := fun l hl =>
      ⟨s, hs, by rwa [hkind.1]⟩
    rcases FlagCall.alone hreach ha hc hflag hdisj hrun with hsame | hdone
    · have hflagIn : block (proc, flag) BaseType.int.size ⊆ c.space env flag value proc arena :=
        fun l hl => .inr (.inr hl)
      rw [bytesAt_congr (heq.mono hflagIn), bytesAt_congr hsame] at hnew
      exact absurd hnew hold
    · have hdataIn : c.transfer.targets env.me proc ⊆ c.space env flag value proc arena :=
        fun l hl => .inl (.inr (.inr hl))
      rw [bytesAt_congr (heq.mono (hdata.trans hdataIn)), bytesAt_congr (hdone.mono hdata)]
      exact hp.effect_put hkind.1 hkind.2 hs m

end

theorem flag_follows_data_put :
    ((FlagCall.put 64 8192 4).run (pairEnv defaultState 0 0) 8224 128 1).Returns [] ∧
    ∀ m m' sys, Relation.ReflTransGen SysStep (m, [⟨[], actSteps 0
        ((FlagCall.put 64 8192 4).run (pairEnv defaultState 0 0) 8224 128 1 []).2⟩]) (m', sys) →
      bytesAt m (1, 8224) 4 ≠ bytesAt m (0, 128) 4 →
      bytesAt m' (1, 8224) 4 = bytesAt m (0, 128) 4 →
      bytesAt m' (1, 8192) 4 = bytesAt m (0, 64) 4 := by
  have hdisj : Disjoint (block (1, 8224) BaseType.int.size)
      ((FlagCall.put 64 8192 4).transfer.targets 0 1) := by
    refine Set.disjoint_left.mpr fun l hl hmem => ?_
    obtain ⟨s, hs, hmem⟩ := hmem
    rw [List.mem_singleton.mp hs] at hmem
    have hle : 8224 ≤ l.2 := hl.2.1
    have hlt : l.2 < 8192 + 4 := hmem.2.2
    omega
  have hdata : (FlagCall.put 64 8192 4).data.Correct (pairEnv defaultState 0 0) 1 highArena :=
    pairEnv_put defaultState 0 (by decide) (by decide) (by decide) (by decide) (by decide)
      (by decide)
  have hflag : (Call.put 128 8224 BaseType.int.size).Correct (pairEnv defaultState 0 0) 1 highArena :=
    pairEnv_put defaultState 0 (by decide) (by decide) (by decide) (by decide) (by decide)
      (by decide)
  obtain ⟨hret, hall⟩ := flag_follows_data (pairEnv_reach defaultState 0 0)
    (pairEnv_allocs defaultState 0 0) hdata hflag hdisj []
  have hf : (FlagCall.put 64 8192 4).data.Feasible (pairEnv defaultState 0 0) 1
      ((FlagCall.put 64 8192 4).data.run (pairEnv defaultState 0 0) 1 []).2 :=
    Call.feasible_of_not_usesDatatypes (by rintro (huse | huse) <;> cases huse)
      (List.forall_mem_singleton.mpr (by decide))
  refine ⟨hret hf, fun m m' sys hrun hold hnew => ?_⟩
  exact hall m m' [] [] sys [] (by simp) (by simp) hrun hold hnew (64, 8192) List.mem_cons_self

end ArmciMpi
