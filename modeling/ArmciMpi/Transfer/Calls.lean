import ArmciMpi.Runtime.Fence
import ArmciMpi.Transfer.Returns
import ArmciMpi.Transfer.Sequence
import ArmciMpi.Transfer.StridedInts

/-!
# The blocking calls

The nine blocking one-sided calls as data, so that results about all of them
and about sequences of them can be stated once. A call asks for transfers: one,
or one for each entry of a vector that is not empty. A correct call that
returns carries them out in order (`Call.carries`), and it does return
(`Call.returns`); the same holds for a sequence of calls.
-/

namespace ArmciMpi

open Lib Script

inductive Call
  | put (src dst : Int) (size : Nat)
  | get (src dst : Int) (size : Nat)
  | acc (scale : Scale) (src dst : Int) (bytes : Nat)
  | putS (src : Int) (srcStride : Nat → Int) (dst : Int) (dstStride : Nat → Int)
      (count : Nat → Nat) (levels : Nat)
  | getS (src : Int) (srcStride : Nat → Int) (dst : Int) (dstStride : Nat → Int)
      (count : Nat → Nat) (levels : Nat)
  | accS (scale : Scale) (src : Int) (srcStride : Nat → Int) (dst : Int) (dstStride : Nat → Int)
      (count : Nat → Nat) (levels : Nat)
  | putV (iov : List Giov)
  | getV (iov : List Giov)
  | accV (scale : Scale) (iov : List Giov)

def entries (iov : List Giov) : List Giov := iov.filter fun g => ¬ g.Nop

namespace Call

def run (env : Env) (proc : Nat) : Call → Script Act Unit
  | put src dst size => parmciPut env src dst size proc
  | get src dst size => parmciGet env src dst size proc
  | acc scale src dst bytes => parmciAcc env scale src dst bytes proc
  | putS src srcStride dst dstStride count levels =>
    parmciPutS env src srcStride dst dstStride count levels proc
  | getS src srcStride dst dstStride count levels =>
    parmciGetS env src srcStride dst dstStride count levels proc
  | accS scale src srcStride dst dstStride count levels =>
    parmciAccS env scale src srcStride dst dstStride count levels proc
  | putV iov => parmciPutV env iov proc
  | getV iov => parmciGetV env iov proc
  | accV scale iov => parmciAccV env scale iov proc

def transfers : Call → List Transfer
  | put src dst size => [putTransfer src dst size]
  | get src dst size => [getTransfer src dst size]
  | acc scale src dst bytes => [accTransfer scale src dst bytes]
  | putS src srcStride dst dstStride count levels =>
    [putSTransfer src srcStride dst dstStride count levels]
  | getS src srcStride dst dstStride count levels =>
    [getSTransfer src srcStride dst dstStride count levels]
  | accS scale src srcStride dst dstStride count levels =>
    [accSTransfer scale src srcStride dst dstStride count levels]
  | putV iov => (entries iov).map fun g => g.transfer .put .byte id false
  | getV iov => (entries iov).map fun g => g.transfer .get .byte id false
  | accV scale iov => (entries iov).map fun g => g.transfer .acc scale.base scale.applied false

/-- Strided specifications are correct, and accumulates are of whole numbers of a
type that is not complex. -/
def Shaped : Call → Prop
  | put .. | get .. | putV _ | getV _ => True
  | acc scale _ _ bytes => scale.unit = scale.base.size ∧ scale.base.size ∣ bytes
  | putS _ srcStride _ dstStride count levels | getS _ srcStride _ dstStride count levels =>
    StridedOk srcStride count levels 1 ∧ StridedOk dstStride count levels 1
  | accS scale _ srcStride _ dstStride count levels => scale.unit = scale.base.size ∧
    StridedOk srcStride count levels scale.base.size ∧
      StridedOk dstStride count levels scale.base.size
  | accV scale iov => scale.unit = scale.base.size ∧ ∀ g ∈ entries iov, scale.base.size ∣ g.bytes

/-- The transfers of the call are proper and lie in slices of the process. -/
structure Correct (env : Env) (proc : Nat) (arena : Set Int) (c : Call) : Prop where
  shaped : c.Shaped
  proper : ∀ t ∈ c.transfers, t.Proper env proc arena
  range : ∀ t ∈ c.transfers, ∃ mreg, t.InRange env proc mreg

/-- The arguments are of C's `int`, and the arithmetic on strided ones does not overflow. -/
def Ints : Call → Prop
  | put _ _ size | get _ _ size | acc _ _ _ size => size ≤ intMax
  | putS src srcStride dst dstStride count levels | getS src srcStride dst dstStride count levels =>
    IntsExact src srcStride dst dstStride count levels 1
  | accS scale src srcStride dst dstStride count levels =>
    IntsExact src srcStride dst dstStride count levels scale.base.size
  | putV iov | getV iov | accV _ iov => ∀ g ∈ iov, g.bytes ≤ intMax ∧ g.ptrArrayLen ≤ intMax

/-- A correct call for which the exact integers of its model are those of the source. -/
structure Valid (env : Env) (proc : Nat) (arena : Set Int) (c : Call) : Prop
    extends c.Correct env proc arena where
  ints : c.Ints

def ByVector (cfg : GlobalState) : Call → Prop
  | put .. | get .. | acc .. => False
  | putS .. | getS .. | accS .. => cfg.stridedMethod ≠ .direct
  | putV _ | getV _ | accV .. => True

/-- What MPI has to provide to a correct call with these actions: an empty transfer may need
a buffer of 0 bytes, and a vector sent by datatypes buffers that are near. -/
structure Feasible (env : Env) (proc : Nat) (acts : List Act) (c : Call) : Prop where
  empty : (∃ t ∈ c.transfers, t.bytes = 0) → env.CanAlloc 0
  near : env.cfg.UsesDatatypes → c.ByVector env.cfg → ∀ t ∈ c.transfers, ∀ mreg,
    t.InRange env proc mreg → t.Near proc mreg acts

section
variable {env : Env} {proc : Nat} {arena : Set Int} {c : Call} {h acts : List Act}

theorem forEach_carries {f : Giov → Script Act Unit} {tr : Giov → Transfer} {iov : List Giov}
    (hskip : ∀ g, g.Nop → ∀ h, f g h = (.ok (), []))
    (hdoes : ∀ g ∈ entries iov, ∀ h a, f g h = (.ok (), a) → Carries env proc arena [tr g] a)
    (hrun : forEach f iov h = (.ok (), acts)) : Carries env proc arena ((entries iov).map tr) acts := by
  induction iov generalizing h acts with
  | nil =>
    cases hrun
    exact .nil
  | cons g iov ih =>
    obtain ⟨_, a, a', hone, hrest, rfl⟩ := bind_eq_ok.mp hrun
    by_cases hnop : g.Nop
    · rw [hskip g hnop] at hone
      cases hone
      rw [entries, List.filter_cons_of_neg (by simpa using hnop)] at hdoes ⊢
      exact ih hdoes hrest
    · rw [entries, List.filter_cons_of_pos (by simpa using hnop)] at hdoes ⊢
      exact (hdoes g List.mem_cons_self _ _ hone).append
        (ih (fun g' hg' => hdoes g' (List.mem_cons_of_mem g hg')) hrest)

theorem mem_entries {iov : List Giov} {g : Giov} (hg : g ∈ entries iov) : ¬ g.Nop := by
  simpa using (List.mem_filter.mp hg).2

theorem Correct.of_mem {t : Transfer} (hc : c.Correct env proc arena) (ht : t ∈ c.transfers) :
    t.Proper env proc arena ∧ ∃ mreg, t.InRange env proc mreg :=
  ⟨hc.proper t ht, hc.range t ht⟩

theorem Correct.one {t : Transfer} (hc : c.Correct env proc arena) (ht : c.transfers = [t]) :
    t.Proper env proc arena ∧ ∃ mreg, t.InRange env proc mreg :=
  hc.of_mem (ht ▸ List.mem_cons_self)

theorem vector_carries (v : VecCall) (ha : env.Allocs arena) (hs : v.Sized) {whole : Bool}
    {iov : List Giov} (hc : ∀ g ∈ entries iov, (v.transfer g whole).Proper env proc arena ∧
      ∃ mreg, (v.transfer g whole).InRange env proc mreg)
    (hrun : forEach (v.entry env proc) iov h = (.ok (), acts)) :
    Carries env proc arena ((entries iov).map fun g => v.transfer g whole) acts := by
  refine forEach_carries (fun g hnop h => VecCall.entry_nop hnop h) (fun g hg h a hone => ?_) hrun
  obtain ⟨hp, mreg, hr⟩ := hc g hg
  exact .one hp (VecCall.entry_does ha hs hp hr (mem_entries hg) hone)

theorem carries (ha : env.Allocs arena) (hc : c.Correct env proc arena)
    (hrun : c.run env proc h = (.ok (), acts)) : Carries env proc arena c.transfers acts := by
  cases c with
  | put src dst size =>
    obtain ⟨hp, mreg, hr⟩ := hc.one rfl
    exact .one hp (parmciPut_does ha hp hr hrun)
  | get src dst size =>
    obtain ⟨hp, mreg, hr⟩ := hc.one rfl
    exact .one hp (parmciGet_does ha hp hr hrun)
  | acc scale src dst bytes =>
    obtain ⟨hp, mreg, hr⟩ := hc.one rfl
    exact .one hp (parmciAcc_does ha hc.shaped.1 hp hr hrun)
  | putS src srcStride dst dstStride count levels =>
    obtain ⟨hp, mreg, hr⟩ := hc.one rfl
    exact .one hp (parmciPutS_does ha hp hr hc.shaped.1 hc.shaped.2 hrun)
  | getS src srcStride dst dstStride count levels =>
    obtain ⟨hp, mreg, hr⟩ := hc.one rfl
    exact .one hp (parmciGetS_does ha hp hr hc.shaped.1 hc.shaped.2 hrun)
  | accS scale src srcStride dst dstStride count levels =>
    obtain ⟨hp, mreg, hr⟩ := hc.one rfl
    exact .one hp (parmciAccS_does ha hc.shaped.1 hp hr hc.shaped.2.1 hc.shaped.2.2 hrun)
  | putV iov =>
    exact vector_carries .put ha trivial (fun g hg => hc.of_mem (List.mem_map_of_mem hg)) hrun
  | getV iov =>
    exact vector_carries .get ha trivial (fun g hg => hc.of_mem (List.mem_map_of_mem hg)) hrun
  | accV scale iov =>
    exact vector_carries (.acc scale) ha hc.shaped.1
      (fun g hg => hc.of_mem (List.mem_map_of_mem hg)) hrun

theorem vector_returns (v : VecCall) (ha : env.Allocs arena) {whole : Bool} {iov : List Giov}
    (hdvd : ∀ g ∈ entries iov, v.base.size ∣ g.bytes) (h : List Act)
    (hc : ∀ g ∈ entries iov, (v.transfer g whole).Proper env proc arena ∧ ∃ mreg,
      (v.transfer g whole).InRange env proc mreg ∧ (env.cfg.UsesDatatypes →
        (v.transfer g whole).Near proc mreg (forEach (v.entry env proc) iov h).2)) :
    (forEach (v.entry env proc) iov).Returns h := by
  refine returns_forEach_within (List.Subset.refl _) fun g hg h' hsub => ?_
  by_cases hnop : g.Nop
  · exact returns_of_ok (VecCall.entry_nop hnop h')
  · have hg : g ∈ entries iov := List.mem_filter.mpr ⟨hg, by simpa using hnop⟩
    obtain ⟨hp, mreg, hr, hnear⟩ := hc g hg
    exact VecCall.returns ha (hdvd g hg) hp hr hnop h' fun huse => (hnear huse).mono hsub

theorem Feasible.canAlloc (hf : c.Feasible env proc acts) (ha : env.Allocs arena) {t : Transfer}
    (ht : t ∈ c.transfers) : env.CanAlloc t.bytes :=
  ha.canAlloc_of fun hzero => hf.empty ⟨t, ht, hzero⟩

theorem Feasible.of_mem (hf : c.Feasible env proc acts) (hc : c.Correct env proc arena)
    {t : Transfer} (ht : t ∈ c.transfers) : t.Proper env proc arena ∧ ∃ mreg,
      t.InRange env proc mreg ∧
        (c.ByVector env.cfg → env.cfg.UsesDatatypes → t.Near proc mreg acts) := by
  obtain ⟨hp, mreg, hr⟩ := hc.of_mem ht
  exact ⟨hp, mreg, hr, fun hway huse => hf.near huse hway t ht mreg hr⟩

theorem Feasible.of_entries (hf : c.Feasible env proc acts) (hc : c.Correct env proc arena)
    (hway : c.ByVector env.cfg) (v : VecCall) {iov : List Giov}
    (htrans : c.transfers = (entries iov).map fun g => v.transfer g false) :
    ∀ g ∈ entries iov, (v.transfer g false).Proper env proc arena ∧ ∃ mreg,
      (v.transfer g false).InRange env proc mreg ∧
        (env.cfg.UsesDatatypes → (v.transfer g false).Near proc mreg acts) := by
  intro g hg
  obtain ⟨hp, mreg, hr, hnear⟩ := hf.of_mem hc (htrans ▸ List.mem_map_of_mem hg)
  exact ⟨hp, mreg, hr, hnear hway⟩

theorem feasible_of_not_usesDatatypes (hno : ¬ env.cfg.UsesDatatypes)
    (hpos : ∀ t ∈ c.transfers, t.bytes ≠ 0) : c.Feasible env proc acts :=
  ⟨fun ⟨t, ht, hzero⟩ => absurd hzero (hpos t ht), fun huse => absurd huse hno⟩

theorem returns (ha : env.Allocs arena) (hc : c.Correct env proc arena) (h : List Act)
    (hf : c.Feasible env proc (c.run env proc h).2) : (c.run env proc).Returns h := by
  have hmem := fun t ht => hf.of_mem hc (t := t) ht
  cases c with
  | put src dst size =>
    obtain ⟨hp, mreg, hr, -⟩ := hmem _ List.mem_cons_self
    have hcan : env.CanAlloc (size * 1) := hf.canAlloc ha List.mem_cons_self
    rw [Nat.mul_one] at hcan
    exact returns_parmciPut (hcan h) hp hr
  | get src dst size =>
    obtain ⟨hp, mreg, hr, -⟩ := hmem _ List.mem_cons_self
    have hcan : env.CanAlloc (size * 1) := hf.canAlloc ha List.mem_cons_self
    rw [Nat.mul_one] at hcan
    exact returns_parmciGet hcan hp hr h
  | acc scale src dst bytes =>
    obtain ⟨hp, mreg, hr, -⟩ := hmem _ List.mem_cons_self
    have hcan := hf.canAlloc ha List.mem_cons_self
    rw [accTransfer_bytes hc.shaped.2] at hcan
    exact returns_parmciAcc ha hcan hc.shaped.2 hp hr h
  | putS src srcStride dst dstStride count levels =>
    obtain ⟨hp, mreg, hr, hn⟩ := hmem _ List.mem_cons_self
    exact returns_parmciPutS ha hp hr hc.shaped.1 hc.shaped.2 h hn
  | getS src srcStride dst dstStride count levels =>
    obtain ⟨hp, mreg, hr, hn⟩ := hmem _ List.mem_cons_self
    exact returns_parmciGetS ha hp hr hc.shaped.1 hc.shaped.2 h hn
  | accS scale src srcStride dst dstStride count levels =>
    obtain ⟨hp, mreg, hr, hn⟩ := hmem _ List.mem_cons_self
    exact returns_parmciAccS ha hc.shaped.1 hp hr hc.shaped.2.1 hc.shaped.2.2 h hn
  | putV iov =>
    exact vector_returns .put ha (fun _ _ => Nat.one_dvd _) h (hf.of_entries hc trivial .put rfl)
  | getV iov =>
    exact vector_returns .get ha (fun _ _ => Nat.one_dvd _) h (hf.of_entries hc trivial .get rfl)
  | accV scale iov =>
    exact vector_returns (.acc scale) ha hc.shaped.2 h (hf.of_entries hc trivial (.acc scale) rfl)

end

end Call

-- ------------------------------
-- Sequences of calls
-- ------------------------------

def runCalls (env : Env) (proc : Nat) (calls : List Call) : Script Act Unit :=
  forEach (Call.run env proc) calls

section
variable {env : Env} {proc : Nat} {arena : Set Int} {calls : List Call} {h acts : List Act}

theorem runCalls_carries (ha : env.Allocs arena) (hc : ∀ c ∈ calls, c.Correct env proc arena)
    (hrun : runCalls env proc calls h = (.ok (), acts)) :
    Carries env proc arena (calls.flatMap Call.transfers) acts := by
  induction calls generalizing h acts with
  | nil =>
    cases hrun
    exact .nil
  | cons c calls ih =>
    obtain ⟨_, a, a', hone, hrest, rfl⟩ := bind_eq_ok.mp hrun
    rw [List.flatMap_cons]
    exact (Call.carries ha (hc c List.mem_cons_self) hone).append
      (ih (fun c' hc' => hc c' (List.mem_cons_of_mem c hc')) hrest)

def FeasibleCalls (env : Env) (proc : Nat) (calls : List Call) (h : List Act) : Prop :=
  Along (Call.run env proc) (fun c h => c.Feasible env proc (c.run env proc h).2) calls h

theorem runCalls_returns (ha : env.Allocs arena) (hc : ∀ c ∈ calls, c.Correct env proc arena)
    (hf : FeasibleCalls env proc calls h) : (runCalls env proc calls).Returns h :=
  returns_along (fun c hmem h' => Call.returns ha (hc c hmem) h') hf

end

-- ------------------------------
-- Two processes with one region
-- ------------------------------

def Act.bump (gap : Nat) (top : Int) : Act → Int
  | .allocMem p n => max top (p + n + gap)
  | _ => top

def bumpTop (gap : Nat) (h : List Act) : Int := h.foldl (Act.bump gap) (2 ^ 20)

def highArena : Set Int := {a | 2 ^ 20 ≤ a}

theorem bumpTop_ge (gap : Nat) (h : List Act) :
    2 ^ 20 ≤ bumpTop gap h ∧ ∀ p n, .allocMem p n ∈ h → p + (n : Nat) ≤ bumpTop gap h := by
  have hfold : ∀ (h : List Act) (top : Int), top ≤ h.foldl (Act.bump gap) top ∧
      ∀ p n, .allocMem p n ∈ h → p + (n : Nat) ≤ h.foldl (Act.bump gap) top := by
    intro h
    induction h with
    | nil => exact fun top => ⟨le_refl top, fun p n hmem => absurd hmem List.not_mem_nil⟩
    | cons a h ih =>
      intro top
      obtain ⟨hle, hall⟩ := ih (a.bump gap top)
      have hstep : top ≤ a.bump gap top := by
        cases a <;> simp [Act.bump]
      refine ⟨hstep.trans hle, fun p n hmem => ?_⟩
      rcases List.mem_cons.mp hmem with rfl | hmem
      · exact (le_max_of_le_right (by omega)).trans hle
      · exact hall p n hmem
  exact hfold h _

theorem mem_of_live {h : List Act} {p : Int × Nat} (hp : p ∈ live h) : .allocMem p.1 p.2 ∈ h := by
  have hfold : ∀ (h : List Act) (before : List (Int × Nat)),
      p ∈ h.foldl Act.liveStep before → p ∈ before ∨ .allocMem p.1 p.2 ∈ h := by
    intro h
    induction h with
    | nil => exact fun before hp => .inl hp
    | cons a h ih =>
      intro before hp
      rcases ih _ hp with hp | hmem
      · cases a with
        | allocMem q n =>
          rcases List.mem_cons.mp hp with rfl | hp
          · exact .inr List.mem_cons_self
          · exact .inl hp
        | freeMem q => exact .inl (List.mem_filter.mp hp).1
        | _ => exact .inl hp
      · exact .inr (List.mem_cons_of_mem a hmem)
  exact (hfold h [] hp).resolve_left List.not_mem_nil

def pairWorldAt (rank : Fin 2) : World :=
  { pairWorld with rank := rank, rank_lt := rank.isLt }

def pairWin : Win := ⟨0, pairWorld.comm, [4096, 8192]⟩

def pairRegion (cfg : GlobalState) (rank : Fin 2) : Gmr where
  window := some pairWin
  group := groupInitFromComm (pairWorldAt rank) cfg pairWorld.comm
    ⟨some pairWorld.comm, none, 0, 0, none, none⟩
  slices := [⟨4096, 64⟩, ⟨8192, 64⟩]
  nslices := 2
  unified := true

theorem pairRegion_moved (cfg : GlobalState) (rank : Fin 2) (id : Nat) {a b : Int} (ha : 0 < a)
    (hb : 0 < b) :
    ({ pairRegion cfg rank with
        window := some ⟨id, pairWorld.comm, [a, b]⟩
        slices := [⟨a, 64⟩, ⟨b, 64⟩] } : Gmr).Ok (pairWorldAt rank) cfg
      ⟨id, pairWorld.comm, [a, b]⟩ where
  window := rfl
  group := ⟨show ∀ r ∈ [0, 1], r < 2 by decide, pairWorld.comm,
    ⟨some pairWorld.comm, none, 0, 0, none, none⟩, rfl, rfl⟩
  member := (show ∀ r : Fin 2, r.val ∈ [0, 1] by decide) rank
  nslices := rfl
  outside := by
    intro p hp
    match p with
    | 0 => cases hp
    | 1 => cases hp
    | p + 2 => rfl
  base := by
    intro p g hp _
    match p with
    | 0 => cases hp; rfl
    | 1 => cases hp; rfl
    | p + 2 => cases hp
  nonnull := by
    intro p hp
    match p with
    | 0 => exact ha
    | 1 => exact hb
    | p + 2 => cases hp

theorem pairRegion_ok (cfg : GlobalState) (rank : Fin 2) :
    (pairRegion cfg rank).Ok (pairWorldAt rank) cfg pairWin :=
  pairRegion_moved cfg rank pairWin.id (by decide) (by decide)

def pairEnv (cfg : GlobalState) (rank : Fin 2) (gap : Nat) : Env where
  world := pairWorldAt rank
  cfg := cfg
  regions := [pairRegion cfg rank]
  allocMem := fun h _ => bumpTop gap h
  regions_ok := by
    intro r hr
    rw [List.mem_singleton.mp hr]
    exact ⟨_, pairRegion_ok cfg rank⟩

theorem pairEnv_allocs (cfg : GlobalState) (rank : Fin 2) (gap : Nat) :
    (pairEnv cfg rank gap).Allocs highArena where
  null := show ¬ (2 ^ 20 : Int) ≤ 0 by decide
  canAlloc := fun n _ h hzero => by
    have hle : (2 ^ 20 : Int) ≤ 0 := (bumpTop_ge gap h).1.trans_eq hzero
    exact absurd hle (by decide)
  mem := by
    rintro h n p ⟨rfl, -⟩
    exact (bumpTop_ge gap h).1
  inside := by
    rintro h n p ⟨rfl, -⟩ l hl
    exact ⟨hl.1, (bumpTop_ge gap h).1.trans hl.2.1⟩
  fresh := by
    rintro h n p ⟨rfl, -⟩ q hq
    have hle := (bumpTop_ge gap h).2 q.1 q.2 (mem_of_live hq)
    exact block_disjoint fun _ => .inl hle

theorem remote_proper {env : Env} {proc : Nat} {t : Transfer} (hother : env.me ≠ proc)
    (hfits : t.kind.Fits t.base) (hnonempty : t.segs ≠ [])
    (hlow : ∀ s ∈ t.segs, 0 < s.1 ∧ s.1 < 2 ^ 20 ∧ s.1 + t.bytes ≤ 2 ^ 20)
    (htargets : (t.segs.map (t.kind.ends env.me proc)).Pairwise fun e e' =>
      Disjoint (block e.2 t.bytes) (block e'.2 t.bytes))
    (hfill : ∀ x, x.length = t.base.size → (t.fill x).length = t.base.size)
    (hget : t.kind = .get → t.fill = id) : t.Proper env proc highArena where
  fits := hfits
  nonempty := hnonempty
  nonnull := fun s hs => (hlow s hs).1.ne'
  start := fun s hs => not_le.mpr (hlow s hs).2.1
  user := fun s hs l hl hscratch => by
    have hend := hl.2.2
    have hstart : 2 ^ 20 ≤ l.2 := hscratch.2
    have hlow := (hlow s hs).2.2
    simp only at hend
    omega
  outside := fun s hs l hl hscratch => hother (hscratch.1.symm.trans hl.1)
  spread := by
    refine ⟨htargets, fun e he e' he' => ?_⟩
    obtain ⟨s, -, rfl⟩ := List.mem_map.mp he
    obtain ⟨s', -, rfl⟩ := List.mem_map.mp he'
    refine block_disjoint fun heq => ?_
    cases hk : t.kind with
    | put | acc =>
      rw [hk] at heq
      exact absurd heq hother
    | get =>
      rw [hk] at heq
      exact absurd heq.symm hother
  fill_length := hfill
  fill_get := hget

theorem single_proper {env : Env} {proc : Nat} {kind : RmaKind} {base : BaseType} {count : Nat}
    {fill : List UInt8 → List UInt8} {loc rem : Int} (hother : env.me ≠ proc)
    (hfits : kind.Fits base) (hpos : 0 < loc) (hlow : loc + (count * base.size : Nat) ≤ 2 ^ 20)
    (hlt : loc < 2 ^ 20) (hfill : ∀ x, x.length = base.size → (fill x).length = base.size)
    (hget : kind = .get → fill = id) :
    (single kind base count fill loc rem).Proper env proc highArena :=
  remote_proper hother hfits (List.cons_ne_nil _ _)
    (List.forall_mem_singleton.mpr ⟨hpos, hlt, hlow⟩) (List.pairwise_singleton _ _) hfill hget

theorem apart_proper {env : Env} {proc : Nat} {kind : RmaKind} {base : BaseType} {count : Nat}
    {fill : List UInt8 → List UInt8} {loc rem : Int} (hfits : kind.Fits base) (hn : 0 < count)
    (hpos : 0 < loc) (hle : loc + (count * base.size : Nat) ≤ rem)
    (hlow : rem + (count * base.size : Nat) ≤ 2 ^ 20)
    (hfill : ∀ x, x.length = base.size → (fill x).length = base.size)
    (hget : kind = .get → fill = id) :
    (single kind base count fill loc rem).Proper env proc highArena := by
  have hbytes : 0 < count * base.size := Nat.mul_pos hn base.size_pos
  have hout : ∀ (r : Nat) (a : Int), a + (count * base.size : Nat) ≤ 2 ^ 20 →
      block (r, a) (count * base.size) ⊆ (scratch env.me highArena)ᶜ := by
    intro r a ha l hl hscratch
    have hend : l.2 < a + (count * base.size : Nat) := hl.2.2
    have hstart : 2 ^ 20 ≤ l.2 := hscratch.2
    omega
  refine ⟨hfits, List.cons_ne_nil _ _, List.forall_mem_singleton.mpr hpos.ne',
    List.forall_mem_singleton.mpr (not_le.mpr (by omega : loc < 2 ^ 20)),
    List.forall_mem_singleton.mpr (hout _ _ (by omega)),
    List.forall_mem_singleton.mpr (hout _ _ (by omega)), ?_, hfill, hget⟩
  refine ⟨List.pairwise_singleton _ _, fun e he e' he' => ?_⟩
  rw [List.mem_singleton.mp he, List.mem_singleton.mp he']
  cases kind with
  | put | acc => exact block_disjoint fun _ => .inl hle
  | get => exact block_disjoint fun _ => .inr hle

theorem pairEnv_put (cfg : GlobalState) (gap : Nat) {src dst : Int} {size : Nat} (hpos : 0 < src)
    (hlt : src < 2 ^ 20) (hlow : src + size ≤ 2 ^ 20) (hdst : 8192 ≤ dst) (hin : dst < 8256)
    (hend : dst + size ≤ 8256) :
    (Call.put src dst size).Correct (pairEnv cfg 0 gap) 1 highArena where
  shaped := trivial
  proper := List.forall_mem_singleton.mpr (single_proper (show 0 ≠ 1 by decide) (.inr rfl) hpos
    (by rw [BaseType.size, Nat.mul_one]; exact hlow) hlt (fun _ h => h) fun _ => rfl)
  range := by
    have hfound : gmrLookup (pairEnv cfg 0 gap) dst 1 = .ok (some (pairRegion cfg 0)) :=
      if_pos ⟨hdst, hin⟩
    refine List.forall_mem_singleton.mpr ⟨_, hfound, List.forall_mem_singleton.mpr ⟨hdst, hin, ?_⟩⟩
    show dst + (size * BaseType.byte.size : Nat) ≤ 8192 + 64
    rw [BaseType.size, Nat.mul_one]
    exact hend

theorem pairEnv_reach (cfg : GlobalState) (rank : Fin 2) (gap : Nat) :
    (pairEnv cfg rank gap).AllReach 1 := by
  intro mreg hmem c hc
  rw [List.mem_singleton.mp hmem] at hc
  cases hc
  exact show 1 ∈ [0, 1] by decide

end ArmciMpi
