import ArmciMpi.Transfer.Contract

/-!
# Preparing local buffers

`Env.Allocs` is what is assumed of `MPI_Alloc_mem`: it succeeds, the memory it
gives is scratch memory that nothing allocated and not yet released shares, and
no caller's buffer starts there. Under it the functions that prepare buffers do
what `Staged` says: they leave the caller's memory alone and fill the temporary
buffers with copies or multiples of the caller's segments.
-/

namespace ArmciMpi

open Lib Script

-- ------------------------------
-- Allocation
-- ------------------------------

def Act.liveStep (live : List (Int × Nat)) : Act → List (Int × Nat)
  | .allocMem p n => (p, n) :: live
  | .freeMem p => live.filter fun b => b.1 ≠ p
  | _ => live

def live (acts : List Act) : List (Int × Nat) := acts.foldl Act.liveStep []

def Act.allocs : Act → List Int
  | .allocMem p _ => [p]
  | _ => []

def Act.frees : Act → List Int
  | .freeMem p => [p]
  | _ => []

def allocs (acts : List Act) : List Int := acts.flatMap Act.allocs

def frees (acts : List Act) : List Int := acts.flatMap Act.frees

theorem allocs_append (acts acts' : List Act) : allocs (acts ++ acts') = allocs acts ++ allocs acts' :=
  List.flatMap_append

theorem frees_append (acts acts' : List Act) : frees (acts ++ acts') = frees acts ++ frees acts' :=
  List.flatMap_append

theorem frees_eq_nil {acts : List Act} (h : ∀ a ∈ acts, a.NoFree) : frees acts = [] := by
  refine List.flatMap_eq_nil_iff.mpr fun a ha => ?_
  cases a with
  | freeMem p => exact absurd rfl (h _ ha p)
  | _ => rfl

/-- `MPI_Alloc_mem` of `n` bytes never gives a null pointer. -/
def Env.CanAlloc (env : Env) (n : Nat) : Prop := ∀ h, env.allocMem h n ≠ 0

/-- What is assumed of `MPI_Alloc_mem`. For 0 bytes it may give a null pointer. -/
structure Env.Allocs (env : Env) (arena : Set Int) : Prop where
  null : 0 ∉ arena
  canAlloc : ∀ n, 0 < n → env.CanAlloc n
  mem : ∀ {h n p}, env.Gives h n p → p ∈ arena
  inside : ∀ {h n p}, env.Gives h n p → block (env.me, p) n ⊆ scratch env.me arena
  fresh : ∀ {h n p}, env.Gives h n p → ∀ q ∈ live h,
    Disjoint (block (env.me, q.1) q.2) (block (env.me, p) n)

theorem live_append (h acts : List Act) : live (h ++ acts) = acts.foldl Act.liveStep (live h) := by
  simp [live]

theorem mem_live_append {h acts : List Act} (hfree : ∀ a ∈ acts, a.NoFree) {p : Int} {n : Nat}
    (hp : (p, n) ∈ live h ∨ .allocMem p n ∈ acts) : (p, n) ∈ live (h ++ acts) := by
  rw [live_append]
  generalize live h = before at hp
  induction acts generalizing before with
  | nil => exact hp.resolve_right List.not_mem_nil
  | cons a acts ih =>
    have hrest := ih (fun b hb => hfree b (List.mem_cons_of_mem a hb))
    rw [List.foldl_cons]
    refine hrest _ ?_
    rcases hp with hp | hp
    · left
      cases a with
      | allocMem q k => exact List.mem_cons_of_mem _ hp
      | freeMem q => exact absurd rfl (hfree _ List.mem_cons_self q)
      | _ => exact hp
    · rcases List.mem_cons.mp hp with rfl | hp
      · exact .inl List.mem_cons_self
      · exact .inr hp

section
variable {env : Env} {arena : Set Int}

theorem Env.Allocs.canAlloc_of (ha : env.Allocs arena) {n : Nat} (hzero : n = 0 → env.CanAlloc 0) :
    env.CanAlloc n := by
  rcases Nat.eq_zero_or_pos n with rfl | hpos
  · exact hzero rfl
  · exact ha.canAlloc n hpos

theorem mem_arena {p : Int} {me n : Nat} (hn : 0 < n) (h : block (me, p) n ⊆ scratch me arena) :
    p ∈ arena := (h (a := (me, p)) ⟨rfl, le_refl p, by show p < p + n; omega⟩).2

-- ------------------------------
-- Private copies
-- ------------------------------

/-- Buffers as `ARMCII_Buf_prepare_read_vec` or `ARMCII_Buf_prepare_write_vec` leave
them: each is the caller's or a fresh one, which the first fills. -/
structure Prepared (env : Env) (arena : Set Int) (copyIn : Bool) (size : Nat) (h : List Act)
    (bufs : List (Int × Int)) (acts : List Act) : Prop where
  now : OnlyNow (actSteps env.me acts)
  noFree : ∀ a ∈ acts, a.NoFree
  allocs : allocs acts = (bufs.filter fun p => p.2 ≠ p.1).map Prod.snd
  mine : ∀ p ∈ ArmciMpi.allocs acts, p ∈ arena
  kept : env.cfg.shrBufMethod = .copy → ∀ p ∈ bufs, p.2 = p.1 → gmrLookup env p.1 env.me = .ok none
  xfers : actXfers env.me acts = if copyIn then moveAll (fun x _ => x) size
    ((bufs.filter fun p => p.2 ≠ p.1).map fun p => ((env.me, p.1), (env.me, p.2))) else []
  place : ∀ p ∈ bufs, p.2 = p.1 ∨ block (env.me, p.2) size ⊆ scratch env.me arena
  fresh : ∀ p ∈ bufs, p.2 ≠ p.1 → ∀ q ∈ live h,
    Disjoint (block (env.me, q.1) q.2) (block (env.me, p.2) size)
  apart : bufs.Pairwise fun p p' => p.2 ≠ p.1 → p'.2 ≠ p'.1 →
    Disjoint (block (env.me, p.2) size) (block (env.me, p'.2) size)

variable {copyIn : Bool} {size : Nat} {h : List Act}

theorem prepared_nil : Prepared env arena copyIn size h [] [] where
  now := onlyNow_nil
  noFree := by simp
  allocs := rfl
  mine := by simp [ArmciMpi.allocs]
  kept := by simp
  xfers := by cases copyIn <;> rfl
  place := by simp
  fresh := by simp
  apart := .nil

theorem preparePrivate_eq_ok {buf new : Int} {acts : List Act}
    (hrun : preparePrivate env copyIn size buf h = (.ok new, acts)) :
    new = buf ∧ gmrLookup env buf env.me = .ok none ∧ acts = [] ∨ env.Gives h size new ∧
      acts = .allocMem new size :: if copyIn then [.copy buf new size] else [] := by
  obtain ⟨m, hlook, hrun⟩ := lift_bind_eq_ok.mp hrun
  cases m with
  | none =>
    cases hrun
    exact .inl ⟨rfl, hlook, rfl⟩
  | some _ =>
    obtain ⟨p, a, b, halloc, hrest, rfl⟩ := bind_eq_ok.mp hrun
    obtain ⟨hgives, rfl⟩ := allocMem_eq_ok halloc
    refine .inr ?_
    cases copyIn with
    | false =>
      cases hrest
      exact ⟨hgives, rfl⟩
    | true =>
      cases hrest
      exact ⟨hgives, rfl⟩

theorem Prepared.cons_kept {bufs : List (Int × Int)} {acts : List Act} {buf : Int}
    (hbuf : env.cfg.shrBufMethod = .copy → gmrLookup env buf env.me = .ok none)
    (hp : Prepared env arena copyIn size h bufs acts) :
    Prepared env arena copyIn size h ((buf, buf) :: bufs) acts where
  now := hp.now
  noFree := hp.noFree
  allocs := by rw [hp.allocs, List.filter_cons_of_neg (by simp)]
  mine := hp.mine
  kept := fun hcopy p hmem heq => (List.mem_cons.mp hmem).elim (fun hfirst => hfirst ▸ hbuf hcopy)
    fun hmem => hp.kept hcopy p hmem heq
  xfers := by rw [hp.xfers, List.filter_cons_of_neg (by simp)]
  place := fun p hmem => (List.mem_cons.mp hmem).elim (fun heq => .inl (by rw [heq])) (hp.place p)
  fresh := fun p hmem hne => (List.mem_cons.mp hmem).elim (fun heq => absurd (by rw [heq]) hne)
    fun hmem => hp.fresh p hmem hne
  apart := List.pairwise_cons.mpr ⟨fun _ _ hne => absurd rfl hne, hp.apart⟩

def copyActs (copyIn : Bool) (size : Nat) (buf new : Int) : List Act :=
  .allocMem new size :: if copyIn then [.copy buf new size] else []

theorem Prepared.cons_copied (ha : env.Allocs arena) {bufs : List (Int × Int)} {acts : List Act}
    {buf new : Int} (hnew : env.Gives h size new) (hne : new ≠ buf)
    (hp : Prepared env arena copyIn size (h ++ copyActs copyIn size buf new) bufs acts) :
    Prepared env arena copyIn size h ((buf, new) :: bufs)
      (copyActs copyIn size buf new ++ acts) := by
  have hnoFree : ∀ a ∈ copyActs copyIn size buf new, a.NoFree := by
    intro a hmem p hfree
    subst hfree
    cases copyIn <;> simp [copyActs] at hmem
  have hlive : ∀ {p : Int} {n : Nat}, (p, n) ∈ live h ∨ (p, n) = (new, size) →
      (p, n) ∈ live (h ++ copyActs copyIn size buf new) := by
    rintro p n (hmem | heq)
    · exact mem_live_append hnoFree (.inl hmem)
    · cases heq
      exact mem_live_append hnoFree (.inr List.mem_cons_self)
  have hsteps : actSteps env.me (copyActs copyIn size buf new) = if copyIn then
      [.now (move (fun x _ => x) size (env.me, buf) (env.me, new))] else [] := by
    cases copyIn <;> rfl
  constructor
  · intro step hstep
    rw [actSteps_append, List.mem_append, hsteps] at hstep
    rcases hstep with hstep | hstep
    · cases copyIn with
      | false => cases hstep
      | true => exact ⟨_, List.mem_singleton.mp hstep⟩
    · exact hp.now step hstep
  · exact fun a hmem => (List.mem_append.mp hmem).elim (hnoFree a) (hp.noFree a)
  · rw [allocs_append, hp.allocs, List.filter_cons_of_pos (by simpa using hne)]
    cases copyIn <;> rfl
  · intro p hmem
    have hallocs : ArmciMpi.allocs (copyActs copyIn size buf new) = [new] := by cases copyIn <;> rfl
    rw [allocs_append, hallocs] at hmem
    rcases List.mem_cons.mp hmem with rfl | hmem
    · exact ha.mem hnew
    · exact hp.mine p hmem
  · intro hcopy p hmem heq
    rcases List.mem_cons.mp hmem with rfl | hmem
    · exact absurd heq hne
    · exact hp.kept hcopy p hmem heq
  · rw [actXfers_append, hp.xfers, actXfers, hsteps, List.filter_cons_of_pos (by simpa using hne)]
    cases copyIn <;> rfl
  · intro p hmem
    rcases List.mem_cons.mp hmem with rfl | hmem
    · exact .inr (ha.inside hnew)
    · exact hp.place p hmem
  · intro p hmem hp' q hq
    rcases List.mem_cons.mp hmem with rfl | hmem
    · exact ha.fresh hnew q hq
    · exact hp.fresh p hmem hp' q (hlive (.inl hq))
  · refine List.pairwise_cons.mpr ⟨fun p hmem _ hp' => ?_, hp.apart⟩
    exact hp.fresh p hmem hp' (new, size) (hlive (.inr rfl))

theorem prepared_collect (ha : env.Allocs arena) {origBufs newBufs : List Int} {acts : List Act}
    (horig : ∀ o ∈ origBufs, o ∉ arena)
    (hrun : collect (preparePrivate env copyIn size) origBufs h = (.ok newBufs, acts)) :
    newBufs.length = origBufs.length ∧
      Prepared env arena copyIn size h (origBufs.zip newBufs) acts := by
  induction origBufs generalizing h newBufs acts with
  | nil =>
    cases hrun
    exact ⟨rfl, prepared_nil⟩
  | cons orig origBufs ih =>
    obtain ⟨new, a, rest, hone, hrest, rfl⟩ := bind_eq_ok.mp hrun
    obtain ⟨news, a', b, hcollect, hpure, rfl⟩ := bind_eq_ok.mp hrest
    cases hpure
    obtain ⟨hlen, hp⟩ := ih (fun o ho => horig o (List.mem_cons_of_mem orig ho)) hcollect
    refine ⟨by rw [List.length_cons, List.length_cons, hlen], ?_⟩
    rw [List.append_nil, List.zip_cons_cons]
    rcases preparePrivate_eq_ok hone with ⟨rfl, hlook, rfl⟩ | ⟨hnew, rfl⟩
    · rw [List.append_nil] at hp
      exact hp.cons_kept fun _ => hlook
    · refine hp.cons_copied ha hnew fun heq => ?_
      exact horig orig List.mem_cons_self (heq ▸ ha.mem hnew)

theorem prepared_self (hguard : env.cfg.shrBufMethod = .noguard) (bufs : List Int) :
    Prepared env arena copyIn size h (bufs.zip bufs) [] := by
  induction bufs with
  | nil => exact prepared_nil
  | cons b bufs ih => exact ih.cons_kept fun hcopy => by cases hcopy.symm.trans hguard

theorem prepared_bufPrepareReadVec (ha : env.Allocs arena) {origBufs newBufs : List Int}
    {acts : List Act} (horig : ∀ o ∈ origBufs, o ∉ arena)
    (hrun : bufPrepareReadVec env origBufs size h = (.ok newBufs, acts)) :
    newBufs.length = origBufs.length ∧
      Prepared env arena true size h (origBufs.zip newBufs) acts ∧
      (env.cfg.shrBufMethod = .noguard → newBufs = origBufs) := by
  unfold bufPrepareReadVec at hrun
  split at hrun
  · rename_i hguard
    obtain ⟨hlen, hp⟩ := prepared_collect ha horig hrun
    exact ⟨hlen, hp, fun h => absurd h hguard⟩
  · rename_i hguard
    cases hrun
    exact ⟨rfl, prepared_self (not_not.mp hguard) origBufs, fun _ => rfl⟩

theorem prepared_bufPrepareWriteVec (ha : env.Allocs arena) {origBufs newBufs : List Int}
    {acts : List Act} (horig : ∀ o ∈ origBufs, o ∉ arena)
    (hrun : bufPrepareWriteVec env origBufs size h = (.ok newBufs, acts)) :
    newBufs.length = origBufs.length ∧
      Prepared env arena false size h (origBufs.zip newBufs) acts ∧
      (env.cfg.shrBufMethod = .noguard → newBufs = origBufs) := by
  unfold bufPrepareWriteVec at hrun
  split at hrun
  · rename_i hguard
    obtain ⟨hlen, hp⟩ := prepared_collect ha horig hrun
    exact ⟨hlen, hp, fun h => absurd h hguard⟩
  · rename_i hguard
    cases hrun
    exact ⟨rfl, prepared_self (not_not.mp hguard) origBufs, fun _ => rfl⟩

end

-- ------------------------------
-- Segments of prepared buffers
-- ------------------------------

def mkSegs : List Int → List Int → List Int → List Seg
  | user :: users, buf :: bufs, rem :: rems => ⟨user, buf, rem⟩ :: mkSegs users bufs rems
  | _, _, _ => []

section
variable {users bufs rems : List Int}

theorem mkSegs_sent (hb : bufs.length = users.length) (hr : users.length = rems.length) :
    (mkSegs users bufs rems).map Seg.sent = bufs.zip rems := by
  induction users generalizing bufs rems with
  | nil =>
    rw [List.eq_nil_of_length_eq_zero hb]
    rfl
  | cons u users ih =>
    obtain ⟨b, bufs, rfl⟩ := List.exists_cons_of_length_eq_add_one hb
    obtain ⟨r, rems, rfl⟩ := List.exists_cons_of_length_eq_add_one hr.symm
    exact congrArg (_ :: ·) (ih (Nat.succ.inj hb) (Nat.succ.inj hr))

theorem mkSegs_asked (hb : bufs.length = users.length) (hr : users.length = rems.length) :
    (mkSegs users bufs rems).map Seg.asked = users.zip rems := by
  induction users generalizing bufs rems with
  | nil => rfl
  | cons u users ih =>
    obtain ⟨b, bufs, rfl⟩ := List.exists_cons_of_length_eq_add_one hb
    obtain ⟨r, rems, rfl⟩ := List.exists_cons_of_length_eq_add_one hr.symm
    exact congrArg (_ :: ·) (ih (Nat.succ.inj hb) (Nat.succ.inj hr))

theorem mkSegs_bufs (hb : bufs.length = users.length) (hr : users.length = rems.length) :
    (mkSegs users bufs rems).map (fun s => (s.user, s.buf)) = users.zip bufs := by
  induction users generalizing bufs rems with
  | nil => rfl
  | cons u users ih =>
    obtain ⟨b, bufs, rfl⟩ := List.exists_cons_of_length_eq_add_one hb
    obtain ⟨r, rems, rfl⟩ := List.exists_cons_of_length_eq_add_one hr.symm
    exact congrArg (_ :: ·) (ih (Nat.succ.inj hb) (Nat.succ.inj hr))

end

section
variable {env : Env} {arena : Set Int} {k n : Nat} {segs : List Seg} {acts : List Act} {h : List Act}

theorem bytesAt_part {m m' : Mem} {s t : Loc} {N i k : Nat} (hik : i + k ≤ N)
    (heq : bytesAt m s N = bytesAt m' t N) :
    bytesAt m (s.1, s.2 + i) k = bytesAt m' (t.1, t.2 + i) k := by
  refine List.map_congr_left fun j hj => ?_
  have hj' := List.mem_range.mp hj
  have hbyte := bytesAt_apply heq (i := i + j) (by omega)
  push_cast at hbyte
  simpa [Int.add_assoc] using hbyte

def forthEnds (me : Nat) (segs : List Seg) : List (Loc × Loc) :=
  (segs.filter fun s => s.buf ≠ s.user).map fun s => ((me, s.user), (me, s.buf))

/-- The segments used are the caller's or in scratch memory, where they do not
overlap. -/
structure Placed (me : Nat) (arena : Set Int) (size : Nat) (segs : List Seg) : Prop where
  user : ∀ s ∈ segs, block (me, s.user) size ⊆ (scratch me arena)ᶜ
  place : ∀ s ∈ segs, s.buf = s.user ∨ block (me, s.buf) size ⊆ scratch me arena
  apart : segs.Pairwise fun s s' => s.buf ≠ s.user → s'.buf ≠ s'.user →
    Disjoint (block (me, s.buf) size) (block (me, s'.buf) size)

theorem Placed.spread {me size : Nat} (h : Placed me arena size segs) :
    Spread size (forthEnds me segs) := by
  constructor
  · rw [forthEnds, List.pairwise_map]
    refine (h.apart.sublist List.filter_sublist).imp_of_mem fun {s s'} hs hs' hdisj => ?_
    exact hdisj (of_decide_eq_true (List.mem_filter.mp hs).2)
      (of_decide_eq_true (List.mem_filter.mp hs').2)
  · intro e he e' he'
    obtain ⟨s, hs, rfl⟩ := List.mem_map.mp he
    obtain ⟨s', hs', rfl⟩ := List.mem_map.mp he'
    obtain ⟨hs', hne⟩ := List.mem_filter.mp hs'
    have hin := (h.place s' hs').resolve_left (of_decide_eq_true hne)
    exact (disjoint_compl_right.mono hin (h.user s (List.mem_filter.mp hs).1)).symm

theorem Placed.staged {me : Nat} (hpl : Placed me arena (n * k) segs)
    (hnow : OnlyNow (actSteps me acts))
    (hx : actXfers me acts = moveAll (fun x _ => x) (n * k) (forthEnds me segs)) :
    Staged me arena k n id segs acts := by
  have hfoot : ∀ x ∈ actXfers me acts,
      x.dst ⊆ scratch me arena ∧ x.src ⊆ userBytes me (n * k) segs := by
    intro x hmem
    rw [hx] at hmem
    obtain ⟨e, he, rfl⟩ := List.mem_map.mp hmem
    obtain ⟨s, hs, rfl⟩ := List.mem_map.mp he
    obtain ⟨hs, hne⟩ := List.mem_filter.mp hs
    exact ⟨(hpl.place s hs).resolve_left (of_decide_eq_true hne), fun l hl => ⟨s, hs, hl⟩⟩
  refine ⟨hnow, hfoot, hpl.place, fun m s hs j hj => ?_⟩
  have hpart : j * k + k ≤ n * k := by
    rw [← Nat.succ_mul]
    exact Nat.mul_le_mul_right k hj
  by_cases hbuf : s.buf = s.user
  · rw [hbuf]
    have hframe : Set.EqOn (Xfer.applyAll (actXfers me acts) m) m (scratch me arena)ᶜ :=
      Xfer.applyAll_eqOn (fun x hx => disjoint_compl_right.mono_left (hfoot x hx).1) m
    refine bytesAt_congr (hframe.mono (subset_trans ?_ (hpl.user s hs)))
    exact shift_subset (l := (me, s.user)) hj k
  · have hmem : ((me, s.user), (me, s.buf)) ∈ forthEnds me segs :=
      List.mem_map_of_mem (f := fun s : Seg => ((me, s.user), (me, s.buf)))
        (List.mem_filter.mpr ⟨hs, decide_eq_true hbuf⟩)
    rw [hx]
    have hbytes := moveAll_bytes (fun x _ hx _ => hx) hpl.spread m hmem
    exact_mod_cast bytesAt_part hpart hbytes

theorem Prepared.placed {copyIn : Bool} {size : Nat} {copies : List (Int × Int)}
    (hcopies : segs.map (fun s => (s.user, s.buf)) = copies)
    (hp : Prepared env arena copyIn size h copies acts)
    (huser : ∀ s ∈ segs, block (env.me, s.user) size ⊆ (scratch env.me arena)ᶜ) :
    Placed env.me arena size segs := by
  subst hcopies
  exact ⟨huser, fun s hs => hp.place _ (List.mem_map_of_mem hs), List.pairwise_map.mp hp.apart⟩

theorem Prepared.staged {copies : List (Int × Int)}
    (hcopies : segs.map (fun s => (s.user, s.buf)) = copies)
    (hp : Prepared env arena true (n * k) h copies acts)
    (huser : ∀ s ∈ segs, block (env.me, s.user) (n * k) ⊆ (scratch env.me arena)ᶜ) :
    Staged env.me arena k n id segs acts := by
  refine (hp.placed hcopies huser).staged hp.now ?_
  rw [hp.xfers, if_pos rfl, ← hcopies, List.filter_map, List.map_map]
  rfl

-- ------------------------------
-- Scaled copies
-- ------------------------------

def scaleActs (scale : Scale) (n : Nat) (segs : List Seg) : List Act :=
  segs.map fun s => .scale scale s.user s.buf n

theorem actXfers_scaleActs {scale : Scale} (hunit : scale.unit = k) (me : Nat) (segs : List Seg) :
    actXfers me (scaleActs scale n segs) = moveAll (fun x _ => scale.mul x) k
      (((segs.map fun s => (s.user, s.buf)).flatMap (segPairs k n)).map (RmaKind.put.ends me me)) := by
  induction segs with
  | nil => rfl
  | cons s segs ih =>
    have hcons : actXfers me (scaleActs scale n (s :: segs)) =
        actXfers me [.scale scale s.user s.buf n] ++ actXfers me (scaleActs scale n segs) :=
      actXfers_append me [_] _
    rw [hcons, ih, List.map_cons, List.flatMap_cons, List.map_append, moveAll_append]
    congr 1
    simp [actXfers, actSteps, Act.steps, stepXfers, moveAll, segPairs, RmaKind.ends, hunit,
      List.map_eq_flatMap, List.flatMap_assoc]

theorem staged_scaleActs {scale : Scale} (hunit : scale.unit = k) {me : Nat}
    (huser : ∀ s ∈ segs, block (me, s.user) (n * k) ⊆ (scratch me arena)ᶜ)
    (hbuf : ∀ s ∈ segs, block (me, s.buf) (n * k) ⊆ scratch me arena)
    (hapart : segs.Pairwise fun s s' =>
      Disjoint (block (me, s.buf) (n * k)) (block (me, s'.buf) (n * k)))
    (hsteps : actSteps me acts = actSteps me (scaleActs scale n segs)) :
    Staged me arena k n scale.mul segs acts := by
  have hspread : Spread (n * k)
      ((segs.map fun s => (s.user, s.buf)).map (RmaKind.put.ends me me)) := by
    rw [List.map_map]
    refine ⟨List.pairwise_map.mpr hapart, fun e he e' he' => ?_⟩
    obtain ⟨s, hs, rfl⟩ := List.mem_map.mp he
    obtain ⟨s', hs', rfl⟩ := List.mem_map.mp he'
    exact (disjoint_compl_right.mono (hbuf s' hs') (huser s hs)).symm
  have hx : actXfers me acts = _ := (congrArg stepXfers hsteps).trans
    (actXfers_scaleActs hunit me segs)
  have helem : ∀ e ∈ ((segs.map fun s => (s.user, s.buf)).flatMap (segPairs k n)).map
      (RmaKind.put.ends me me), ∃ s ∈ segs, ∃ j < n,
        e = (Loc.shift (me, s.user) (j * k), Loc.shift (me, s.buf) (j * k)) := by
    intro e he
    obtain ⟨p, hp, j, hj, rfl⟩ := mem_elems.mp he
    obtain ⟨s, hs, rfl⟩ := List.mem_map.mp hp
    exact ⟨s, hs, j, hj, rfl⟩
  constructor
  · intro step hstep
    rw [hsteps] at hstep
    obtain ⟨a, ha, hstep⟩ := List.mem_flatMap.mp hstep
    obtain ⟨s, -, rfl⟩ := List.mem_map.mp ha
    obtain ⟨i, -, rfl⟩ := List.mem_map.mp hstep
    exact ⟨_, rfl⟩
  · intro x hmem
    rw [hx] at hmem
    obtain ⟨e, he, rfl⟩ := List.mem_map.mp hmem
    obtain ⟨s, hs, j, hj, rfl⟩ := helem e he
    exact ⟨(shift_subset hj k).trans (hbuf s hs), fun l hl => ⟨s, hs, shift_subset hj k hl⟩⟩
  · exact fun s hs => .inr (hbuf s hs)
  · intro m s hs j hj
    rw [hx]
    refine moveAll_bytes (fun x _ _ _ => (scale.mul_length x).trans hunit) hspread.elems m
      (e := (Loc.shift (me, s.user) (j * k), Loc.shift (me, s.buf) (j * k))) (mem_elems.mpr ?_)
    exact ⟨_, List.mem_map_of_mem hs, j, hj, rfl⟩

theorem contigBufs_apart (me : Nat) (contig : Int) (count size : Nat) :
    (contigBufs contig count size).Pairwise fun p q =>
      Disjoint (block (me, p) size) (block (me, q) size) := by
  rw [contigBufs, List.pairwise_map]
  exact List.pairwise_lt_range.imp fun hij => shift_disjoint (me, contig) hij size

theorem contigBufs_subset (me : Nat) {contig p : Int} {count size : Nat}
    (hp : p ∈ contigBufs contig count size) :
    block (me, p) size ⊆ block (me, contig) (count * size) := by
  obtain ⟨i, hi, rfl⟩ := List.mem_map.mp hp
  exact shift_subset (l := (me, contig)) (List.mem_range.mp hi) size

theorem bufAccScale_eq_ok {bufIn bufOut : Int} {size : Nat} {scale : Scale} {acts : List Act}
    (hrun : bufAccScale bufIn bufOut size scale h = (.ok (), acts)) :
    size % scale.base.size = 0 ∧
      acts = [.scale scale bufIn bufOut (scale.iterations (size / scale.base.size))] := by
  obtain ⟨_, a, a', hemit, hreq, rfl⟩ := bind_eq_ok.mp hrun
  cases hemit
  rw [require_run] at hreq
  split at hreq
  · cases hreq
    exact ⟨‹_›, rfl⟩
  · cases hreq

theorem Scale.iterations_of_unit {scale : Scale} (hunit : scale.unit = scale.base.size) (n : Nat) :
    scale.iterations n = n := by
  cases scale <;> first | rfl | cases hunit

theorem scaleLoop_eq_ok {ps : List (Int × Int)} {size : Nat} {scale : Scale} {acts : List Act}
    (hrun : forEach (fun (orig, new) => bufAccScale orig new size scale) ps h = (.ok (), acts)) :
    acts = ps.map fun p => .scale scale p.1 p.2 (scale.iterations (size / scale.base.size)) := by
  rw [List.map_eq_flatMap]
  refine (forEach_eq_ok (P := fun _ => True) (fun p _ h' a ha => ?_) hrun).1
  exact ⟨(bufAccScale_eq_ok ha).2, trivial⟩

def Scale.applied (scale : Scale) : List UInt8 → List UInt8 :=
  if scale.accIsScaled then scale.mul else id

variable {users bufs rems : List Int}

theorem mem_mkSegs (hb : bufs.length = users.length) (hr : users.length = rems.length) {s : Seg}
    (hs : s ∈ mkSegs users bufs rems) : s.user ∈ users ∧ s.buf ∈ bufs := by
  have hmem : (s.user, s.buf) ∈ users.zip bufs :=
    mkSegs_bufs hb hr ▸ List.mem_map_of_mem (f := fun s : Seg => (s.user, s.buf)) hs
  exact List.of_mem_zip hmem

theorem mkSegs_map_buf (hb : bufs.length = users.length) (hr : users.length = rems.length) :
    (mkSegs users bufs rems).map Seg.buf = bufs := by
  have hmap := congrArg (List.map Prod.snd) (mkSegs_bufs hb hr)
  rwa [List.map_map, List.map_snd_zip hb.le] at hmap

theorem mkSegs_map_rem (hb : bufs.length = users.length) (hr : users.length = rems.length) :
    (mkSegs users bufs rems).map Seg.rem = rems := by
  have hmap := congrArg (List.map Prod.snd) (mkSegs_sent hb hr)
  rwa [List.map_map, List.map_snd_zip (hb.trans hr).ge] at hmap

theorem staged_contig {scale : Scale} (hunit : scale.unit = k)
    (hr : users.length = rems.length) {contig : Int} {size : Nat}
    (hcontig : block (env.me, contig) (users.length * size) ⊆ scratch env.me arena)
    (hsize : size = n * k)
    (huser : ∀ u ∈ users, block (env.me, u) size ⊆ (scratch env.me arena)ᶜ)
    (hsteps : actSteps env.me acts = actSteps env.me ((users.zip (contigBufs contig users.length
      size)).map fun p => .scale scale p.1 p.2 n)) :
    Staged env.me arena k n scale.mul (mkSegs users (contigBufs contig users.length size) rems)
      acts := by
  subst hsize
  have hb : (contigBufs contig users.length (n * k)).length = users.length := by simp [contigBufs]
  refine staged_scaleActs hunit (fun s hs => huser _ (mem_mkSegs hb hr hs).1) (fun s hs => ?_) ?_ ?_
  · exact (contigBufs_subset env.me (mem_mkSegs hb hr hs).2).trans hcontig
  · have hapart := contigBufs_apart env.me contig users.length (n * k)
    rwa [← mkSegs_map_buf hb hr, List.pairwise_map] at hapart
  · rw [hsteps, ← mkSegs_bufs hb hr, List.map_map]
    rfl

theorem bufPrepareAccVec_eq_ok {scale : Scale} {size : Nat} {contig : Int}
    (hrun : bufPrepareAccVec env users size scale h = (.ok (bufs, contig), acts)) :
    scale.accIsScaled = true ∧ env.Gives h (users.length * size) contig ∧
        bufs = contigBufs contig users.length size ∧
        acts = .allocMem contig (users.length * size) :: (users.zip bufs).map (fun p =>
          .scale scale p.1 p.2 (scale.iterations (size / scale.base.size))) ∨
      scale.accIsScaled = false ∧ contig = 0 ∧
        bufPrepareReadVec env users size h = (.ok bufs, acts) := by
  unfold bufPrepareAccVec at hrun
  split at hrun
  · rename_i hscaled
    obtain ⟨p, a, rest, halloc, hrest, rfl⟩ := bind_eq_ok.mp hrun
    obtain ⟨hgives, rfl⟩ := allocMem_eq_ok halloc
    obtain ⟨_, a', b, hloop, hpure, rfl⟩ := bind_eq_ok.mp hrest
    cases hpure
    obtain rfl := scaleLoop_eq_ok hloop
    exact .inl ⟨hscaled, hgives, rfl, by rw [List.append_nil, List.singleton_append]⟩
  · rename_i hscaled
    obtain ⟨news, a, b, hread, hpure, rfl⟩ := bind_eq_ok.mp hrun
    cases hpure
    rw [List.append_nil]
    exact .inr ⟨Bool.not_eq_true _ ▸ hscaled, rfl, hread⟩

theorem staged_bufPrepareAccVec (ha : env.Allocs arena) {scale : Scale}
    (hunit : scale.unit = scale.base.size) (hr : users.length = rems.length)
    (hstart : ∀ u ∈ users, u ∉ arena)
    (huser : ∀ u ∈ users, block (env.me, u) (n * scale.base.size) ⊆ (scratch env.me arena)ᶜ)
    {contig : Int}
    (hrun : bufPrepareAccVec env users (n * scale.base.size) scale h = (.ok (bufs, contig), acts)) :
    bufs.length = users.length ∧
      Staged env.me arena scale.base.size n scale.applied (mkSegs users bufs rems) acts := by
  rcases bufPrepareAccVec_eq_ok hrun with ⟨hscaled, hgives, rfl, rfl⟩ | ⟨hscaled, -, hread⟩
  · refine ⟨by simp [contigBufs], ?_⟩
    rw [Scale.applied, if_pos hscaled]
    refine staged_contig hunit hr (ha.inside hgives) rfl huser ?_
    rw [Nat.mul_div_cancel n scale.base.size_pos, scale.iterations_of_unit hunit]
    rfl
  · obtain ⟨hb, hp, -⟩ := prepared_bufPrepareReadVec ha hstart hread
    refine ⟨hb, ?_⟩
    rw [Scale.applied, if_neg (by rw [hscaled]; decide)]
    exact hp.staged (mkSegs_bufs hb hr) fun s hs => huser _ (mem_mkSegs hb hr hs).1

end

end ArmciMpi
