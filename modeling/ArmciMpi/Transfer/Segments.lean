import ArmciMpi.Mpi.Memory
import ArmciMpi.Transfer.Vector
import Mathlib.Data.List.Zip

/-!
# The elements that vector operations move

Whatever way the segments of a vector are sent, the operations that go out have
the same elements in the same order: those of the first segment, then those of
the second and so on (`sends_iovOpBatched`, `sends_iovOpDatatype`). The
datatypes of `iovOpDatatype` give each segment by its distance from the lowest
local address and from the base of the window, and are cut into chunks; neither
shows in the elements.
-/

namespace ArmciMpi

open Lib Script

-- ------------------------------
-- Elements
-- ------------------------------

/-- The elements of a segment of `n` elements of `k` bytes, by local and remote
address. -/
def segPairs (k n : Nat) (seg : Int × Int) : List (Int × Int) :=
  (List.range n).map fun (j : Nat) => (seg.1 + j * k, seg.2 + j * k)

theorem elems_predefined (b : BaseType) (n : Nat) :
    (Dtype.predefined b).elems n = (List.range n).map fun (j : Nat) => (j * b.size : Int) := by
  simp [Dtype.elems, Dtype.predefined, List.map_eq_flatMap]

theorem elems_one (t : Dtype) : t.elems 1 = t.disps := by simp [Dtype.elems]

theorem trueExtent_predefined (b : BaseType) : (Dtype.predefined b).trueExtent = b.size := by
  simp [Dtype.trueExtent, Dtype.trueUb, Dtype.trueLb, Dtype.predefined, Dtype.elemSize]

theorem disps_indexedBlock (b : BaseType) (n : Nat) (ds : List Int) :
    ((Dtype.predefined b).indexedBlock n ds).disps =
      ds.flatMap fun d => (List.range n).map fun (j : Nat) => (d + j) * (b.size : Int) := by
  simp [Dtype.indexedBlock, Dtype.predefined, List.map_eq_flatMap]

theorem zip_flatMap {α β γ : Type} {f : α → List β} {g : α → List γ} {l : List α}
    (h : ∀ x ∈ l, (f x).length = (g x).length) :
    (l.flatMap f).zip (l.flatMap g) = l.flatMap fun x => (f x).zip (g x) := by
  induction l with
  | nil => rfl
  | cons x l ih =>
    rw [List.flatMap_cons, List.flatMap_cons, List.flatMap_cons,
      List.zip_append (h x List.mem_cons_self), ih fun y hy => h y (List.mem_cons_of_mem x hy)]

def Gmr.remoteBase (mreg : Gmr) (proc : Nat) (rem : Int) : Int :=
  if rem = 0 then (mreg.slice proc).base else rem

section
variable {env : Env} {mreg : Gmr} {proc : Nat} {win : Win} {g : Nat}

theorem rmaOf_pairs (hr : Reaches env mreg proc win g) (hpos : 0 < (mreg.slice proc).size)
    (kind : RmaKind) (atomic : Bool) (loc : Int) (locCount : Nat) (locType : Dtype) (rem : Int)
    (remCount : Nat) (remType : Dtype) (handle : Option Nat) :
    (rmaOf env kind atomic mreg win loc locCount locType rem remCount remType proc g handle).pairs =
      ((locType.elems locCount).map (loc + ·)).zip
        ((remType.elems remCount).map (mreg.remoteBase proc rem + ·)) := by
  have hbase := hr.ok.base proc g hr.rank hpos
  have hstart : ((win.base[g]?).getD 0 : Int) + mreg.disp proc rem = mreg.remoteBase proc rem := by
    rw [hbase, Gmr.disp, Gmr.remoteBase, Option.getD_some]
    split <;> omega
  simp only [Rma.pairs, Rma.originElems, Rma.targetElems, Rma.targetBase, rmaOf, Int.toNat_natCast,
    hstart]

-- ------------------------------
-- Actions that send elements
-- ------------------------------

/-- The action issues an operation of the kind and type to the process, or flushes
operations to it, or does not touch memory. -/
inductive SendAct (kind : RmaKind) (b : BaseType) (win : Win) (g : Int) : Act → Prop
  | rma (op) (hkind : op.kind = kind) (hbase : op.originType.base = b) (hwin : op.win = win)
      (htarget : op.target = g) : SendAct kind b win g (.rma op)
  | flush : SendAct kind b win g (.flush win g)
  | flushLocal : SendAct kind b win g (.flushLocal win g)
  | setTarget (handle target) : SendAct kind b win g (.setTarget handle target)

structure Sends (kind : RmaKind) (b : BaseType) (win : Win) (g : Nat) (acts : List Act)
    (pairs : List (Int × Int)) : Prop where
  each : ∀ a ∈ acts, SendAct kind b win g a
  elems : (issued acts).flatMap Rma.pairs = pairs
  lengths : ∀ op ∈ issued acts, op.originElems.length = op.targetElems.length

variable {kind : RmaKind} {b : BaseType} {acts acts' : List Act} {pairs pairs' : List (Int × Int)}

theorem sends_nil : Sends kind b win g [] [] :=
  ⟨fun _ h => absurd h List.not_mem_nil, rfl, fun _ h => absurd h List.not_mem_nil⟩

theorem Sends.append (h : Sends kind b win g acts pairs) (h' : Sends kind b win g acts' pairs') :
    Sends kind b win g (acts ++ acts') (pairs ++ pairs') where
  each := fun a ha => (List.mem_append.mp ha).elim (h.each a) (h'.each a)
  elems := by rw [issued_append, List.flatMap_append, h.elems, h'.elems]
  lengths := fun op hop => by
    rw [issued_append] at hop
    exact (List.mem_append.mp hop).elim (h.lengths op) (h'.lengths op)

theorem Sends.issued_on (h : Sends kind b win g acts pairs) {op : Rma} (hop : op ∈ issued acts) :
    op.kind = kind ∧ op.win = win ∧ op.target = g := by
  obtain ⟨a, ha, hop⟩ := List.mem_flatMap.mp hop
  cases h.each a ha with
  | rma op' hkind hbase hwin htarget =>
    rw [List.mem_singleton.mp hop]
    exact ⟨hkind, hwin, htarget⟩
  | flush | flushLocal | setTarget => exact absurd hop List.not_mem_nil

theorem sends_flush (env : Env) (localOnly : Bool) :
    Sends kind b win g [flushAct env localOnly win g] [] := by
  refine ⟨fun a ha => ?_, by simp [issued, flushAct_issues], by simp [issued, flushAct_issues]⟩
  rw [List.mem_singleton.mp ha, flushAct]
  split
  · exact .flush
  · exact .flushLocal

theorem sends_rmaOf (hr : Reaches env mreg proc win g) (hpos : 0 < (mreg.slice proc).size)
    (kind : RmaKind) (atomic : Bool) (loc : Int) {locCount : Nat} {locType : Dtype} (rem : Int)
    {remCount : Nat} {remType : Dtype} (handle : Option Nat)
    (hlen : (locType.elems locCount).length = (remType.elems remCount).length) :
    Sends kind locType.base win g
      (.rma (rmaOf env kind atomic mreg win loc locCount locType rem remCount remType proc g
        handle) :: handleActs env g handle)
      (((locType.elems locCount).map (loc + ·)).zip
        ((remType.elems remCount).map (mreg.remoteBase proc rem + ·))) := by
  have hhandle : ∀ a ∈ handleActs env g handle,
      SendAct kind locType.base win g a ∧ a.issues = [] := by
    intro a ha
    unfold handleActs at ha
    split at ha
    · split at ha
      · cases ha
      · rw [List.mem_singleton.mp ha]
        exact ⟨.setTarget _ _, rfl⟩
    · cases ha
  have hnil : issued (handleActs env g handle) = [] :=
    List.flatMap_eq_nil_iff.mpr fun a ha => (hhandle a ha).2
  refine ⟨fun a ha => ?_, ?_, fun op hop => ?_⟩
  · rcases List.mem_cons.mp ha with rfl | ha
    · exact .rma _ rfl rfl rfl rfl
    · exact (hhandle a ha).1
  · rw [← rmaOf_pairs hr hpos kind atomic loc locCount locType rem remCount remType handle,
      ← List.singleton_append, issued_append, hnil]
    simp [issued, Act.issues]
  · rw [← List.singleton_append, issued_append, hnil, List.append_nil] at hop
    obtain rfl := List.mem_singleton.mp hop
    simpa [Rma.originElems, Rma.targetElems, rmaOf] using hlen

theorem Sends.xfers (h : Sends kind b win g acts pairs) (hrank : win.comm.rankOf proc = some g)
    (me : Nat) :
    actXfers me acts = moveAll (kind.fn b) b.size (pairs.map (kind.ends me proc)) := by
  obtain ⟨hacts, rfl, -⟩ := h
  induction acts with
  | nil => rfl
  | cons a acts ih =>
    have hrest := ih fun a' ha' => hacts a' (List.mem_cons_of_mem a ha')
    have hcons : actXfers me (a :: acts) = stepXfers (a.steps me) ++ actXfers me acts := by
      rw [actXfers, actSteps, List.flatMap_cons, stepXfers_append]
      rfl
    have hissued : issued (a :: acts) = a.issues ++ issued acts := List.flatMap_cons
    rw [hcons, hrest, hissued, List.flatMap_append, List.map_append, moveAll_append]
    congr 1
    cases hacts a List.mem_cons_self with
    | rma op hkind hbase hwin htarget =>
      subst hkind hbase hwin
      have hworld := Win.worldRank_eq_some hrank
      simp [stepXfers, Act.steps, Act.issues, Rma.xfers, Dtype.elemSize, htarget, hworld]
    | flush | flushLocal | setTarget => rfl

theorem Sends.xfers_flush (h : Sends kind b win g acts pairs)
    (hrank : win.comm.rankOf proc = some g) (me : Nat) :
    actXfers me (acts ++ [.flush win g]) =
      moveAll (kind.fn b) b.size (pairs.map (kind.ends me proc)) := by
  rw [actXfers_append, h.xfers hrank]
  exact List.append_nil _

-- ------------------------------
-- Segment by segment
-- ------------------------------

/-- The `n` bytes at a remote address lie in the slice of the process. -/
structure Gmr.Holds (mreg : Gmr) (proc : Nat) (rem : Int) (n : Nat) : Prop where
  ge : (mreg.slice proc).base ≤ rem
  lt : rem < (mreg.slice proc).base + (mreg.slice proc).size
  le : rem + n ≤ (mreg.slice proc).base + (mreg.slice proc).size

theorem Gmr.Holds.pos {rem : Int} {n : Nat} (h : mreg.Holds proc rem n) :
    0 < (mreg.slice proc).size := by
  have := h.ge
  have := h.lt
  omega

theorem Gmr.Holds.ne_zero {rem : Int} {n : Nat} (h : mreg.Holds proc rem n)
    (hr : Reaches env mreg proc win g) : rem ≠ 0 := by
  have := hr.ok.nonnull proc h.pos
  have := h.ge
  omega

theorem covers_iff {rem : Int} (hrem : rem ≠ 0) (n : Nat) (b : BaseType) :
    mreg.Covers proc rem n (.predefined b) ↔ mreg.Holds proc rem (n * b.size) := by
  have hdisp : mreg.disp proc rem = rem - (mreg.slice proc).base := if_neg hrem
  constructor
  · rintro ⟨h₁, h₂, h₃⟩
    rw [trueExtent_predefined] at h₃
    exact ⟨by omega, by omega, by push_cast; omega⟩
  · rintro ⟨h₁, h₂, h₃⟩
    refine ⟨by omega, by omega, ?_⟩
    rw [trueExtent_predefined]
    push_cast at h₃
    omega

def RmaKind.Fits (kind : RmaKind) (b : BaseType) : Prop := kind = .acc ∨ b = .byte

variable (env mreg proc) in
theorem gmrSegment_eq (hfit : kind.Fits b) (src dst : Int) (n : Nat) (handle : Option Nat) :
    ∃ atomic, gmrSegment env kind mreg src dst n (.predefined b) proc handle = (do
      require (localOf kind src dst ≠ 0) "Invalid local address"
      gmrRmaTyped env kind atomic mreg (localOf kind src dst) n (.predefined b)
        (remoteOf kind src dst) n (.predefined b) proc handle) := by
  cases kind with
  | put | get =>
    obtain rfl := hfit.resolve_left (by decide)
    exact ⟨_, rfl⟩
  | acc => exact ⟨_, rfl⟩

theorem zip_segment (loc rem : Int) (k n : Nat) :
    (((List.range n).map fun (j : Nat) => (j * k : Int)).map (loc + ·)).zip
        (((List.range n).map fun (j : Nat) => (j * k : Int)).map (rem + ·)) =
      segPairs k n (loc, rem) := by
  simp [segPairs, List.zip_map', Function.comp_def]

theorem sends_gmrSegment (hr : Reaches env mreg proc win g) (hfit : kind.Fits b) {src dst : Int}
    {n : Nat} (hloc : localOf kind src dst ≠ 0)
    (hrem : mreg.Holds proc (remoteOf kind src dst) (n * b.size)) (handle : Option Nat)
    (h : List Act) :
    ∃ acts, gmrSegment env kind mreg src dst n (.predefined b) proc handle h = (.ok (), acts) ∧
      Sends kind b win g acts (segPairs b.size n (localOf kind src dst, remoteOf kind src dst)) := by
  obtain ⟨atomic, heq⟩ := gmrSegment_eq env mreg proc hfit src dst n handle
  rw [heq, require_true hloc, pure_bind_run,
    gmrRmaTyped_ok hr.ok hr.rank ((covers_iff (hrem.ne_zero hr) n b).mpr hrem)]
  refine ⟨_, rfl, ?_⟩
  have hlen : ((Dtype.predefined b).elems n).length = ((Dtype.predefined b).elems n).length := rfl
  have hsends := sends_rmaOf hr hrem.pos kind atomic (localOf kind src dst) (remoteOf kind src dst)
    handle hlen
  rwa [elems_predefined, Gmr.remoteBase, if_neg (hrem.ne_zero hr), zip_segment] at hsends

def orient (kind : RmaKind) (seg : Int × Int) : Int × Int :=
  (localOf kind seg.1 seg.2, remoteOf kind seg.1 seg.2)

structure Gmr.Takes (mreg : Gmr) (proc : Nat) (n : Nat) (seg : Int × Int) : Prop where
  nonnull : seg.1 ≠ 0
  holds : mreg.Holds proc seg.2 n

def allPairs (kind : RmaKind) (k n : Nat) (segs : List (Int × Int)) : List (Int × Int) :=
  segs.flatMap fun seg => segPairs k n (orient kind seg)

theorem sends_batchedLoop (hr : Reaches env mreg proc win g) (hfit : kind.Fits b) {n : Nat}
    (consrv blocking : Bool) (handle : Option Nat) {segs : List (Int × Int)}
    (hsegs : ∀ seg ∈ segs, mreg.Takes proc (n * b.size) (orient kind seg)) (i : Nat)
    (flushLocal : Bool) (h : List Act) :
    ∃ acts, batchedLoop env kind mreg n (.predefined b) proc consrv blocking handle i flushLocal
        segs h = (.ok (if segs = [] then flushLocal else kind != .get), acts) ∧
      Sends kind b win g acts (allPairs kind b.size n segs) := by
  induction segs generalizing i flushLocal h with
  | nil => exact ⟨[], rfl, sends_nil⟩
  | cons seg segs ih =>
    have hseg := hsegs seg List.mem_cons_self
    have hrest : ∀ h, ∃ acts, (do
        gmrSegment env kind mreg seg.1 seg.2 n (.predefined b) proc handle
        batchedLoop env kind mreg n (.predefined b) proc consrv blocking handle (i + 1)
          (kind != .get) segs : Script Act Bool) h = (.ok (kind != .get), acts) ∧
        Sends kind b win g acts (allPairs kind b.size n (seg :: segs)) := by
      intro h
      obtain ⟨a, ha, hsa⟩ := sends_gmrSegment hr hfit hseg.nonnull hseg.holds handle h
      obtain ⟨a', ha', hsa'⟩ := ih (fun s hs => hsegs s (List.mem_cons_of_mem seg hs)) (i + 1)
        (kind != .get) (h ++ a)
      rw [ite_self] at ha'
      exact ⟨a ++ a', bind_ok ha ha', hsa.append hsa'⟩
    rw [if_neg (List.cons_ne_nil seg segs)]
    unfold batchedLoop
    split
    · obtain ⟨a, ha, hsa⟩ := hrest (h ++ [flushAct env flushLocal win g])
      exact ⟨_, bind_ok (gmrFlush_ok hr.ok hr.rank flushLocal h) ha,
        (sends_flush env flushLocal).append hsa⟩
    · exact hrest h

def closing (env : Env) (kind : RmaKind) (win : Win) (g : Nat) (blocking : Bool) : List Act :=
  if blocking then [flushAct env (kind != .get) win g] else []

theorem gmrFlush_closing (hr : Reaches env mreg proc win g) (kind : RmaKind) (blocking : Bool)
    (h : List Act) :
    (if blocking then gmrFlush env mreg proc (kind != .get) else pure ()) h =
      (.ok (), closing env kind win g blocking) := by
  unfold closing
  split
  · exact gmrFlush_ok hr.ok hr.rank _ h
  · rfl

theorem sends_iovOpBatched {src dst : List Int}
    (hlook : gmrLookup env ((remoteOf kind src dst).headD 0) proc = .ok (some mreg))
    (hr : Reaches env mreg proc win g) (hfit : kind.Fits b) {n : Nat} (hne : src.zip dst ≠ [])
    (hsegs : ∀ seg ∈ src.zip dst, mreg.Takes proc (n * b.size) (orient kind seg))
    (consrv blocking : Bool) (handle : Option Nat) (h : List Act) :
    ∃ acts, iovOpBatched env kind src dst n (.predefined b) proc consrv blocking handle h =
        (.ok (), acts ++ closing env kind win g blocking) ∧
      Sends kind b win g acts (allPairs kind b.size n (src.zip dst)) := by
  obtain ⟨a, ha, hsa⟩ := sends_batchedLoop hr hfit consrv blocking handle hsegs 0 true h
  rw [if_neg hne] at ha
  refine ⟨a, ?_, hsa⟩
  rw [iovOpBatched, hlook, lift_ok_bind, found, lift_ok_bind]
  exact bind_ok ha (gmrFlush_closing hr kind blocking (h ++ a))

-- ------------------------------
-- Datatypes
-- ------------------------------

theorem sends_forEach {f : β → Script Act Unit} {ps : β → List (Int × Int)} {xs : List β}
    (hf : ∀ x ∈ xs, ∀ h, ∃ acts, f x h = (.ok (), acts) ∧ Sends kind b win g acts (ps x))
    (h : List Act) :
    ∃ acts, forEach f xs h = (.ok (), acts) ∧ Sends kind b win g acts (xs.flatMap ps) := by
  induction xs generalizing h with
  | nil => exact ⟨[], rfl, sends_nil⟩
  | cons x xs ih =>
    obtain ⟨a, ha, hsa⟩ := hf x List.mem_cons_self h
    obtain ⟨a', ha', hsa'⟩ := ih (fun y hy => hf y (List.mem_cons_of_mem x hy)) (h ++ a)
    exact ⟨a ++ a', bind_ok ha ha', hsa.append hsa'⟩

theorem chunks_flatten {c fuel : Nat} (hc : 0 < c) {l : List α} (hfuel : l.length ≤ fuel) :
    (chunks c fuel l).flatten = l := by
  induction fuel generalizing l with
  | zero => rw [List.eq_nil_of_length_eq_zero (Nat.le_zero.mp hfuel), chunks, List.flatten_nil]
  | succ fuel ih =>
    unfold chunks
    split
    · rename_i hl
      rw [hl, List.flatten_nil]
    · have hpos := List.length_pos_iff.mpr ‹_›
      rw [List.flatten_cons, ih (by simp; omega), List.take_append_drop]

theorem foldl_min_ge {l : List Int} {a lo : Int} (ha : lo ≤ a) (h : ∀ d ∈ l, lo ≤ d) :
    lo ≤ l.foldl min a := by
  induction l generalizing a with
  | nil => exact ha
  | cons d l ih =>
    have hd := h d List.mem_cons_self
    exact ih (by omega) fun d' hd' => h d' (List.mem_cons_of_mem d hd')

theorem foldl_max_le {l : List Int} {a hi : Int} (ha : a ≤ hi) (h : ∀ d ∈ l, d ≤ hi) :
    l.foldl max a ≤ hi := by
  induction l generalizing a with
  | nil => exact ha
  | cons d l ih =>
    have hd := h d List.mem_cons_self
    exact ih (by omega) fun d' hd' => h d' (List.mem_cons_of_mem d hd')

theorem trueExtent_le {t : Dtype} {lo hi : Int} (hle : lo ≤ hi)
    (h : ∀ d ∈ t.disps, lo ≤ d ∧ d + t.elemSize ≤ hi) : t.trueExtent ≤ hi - lo := by
  unfold Dtype.trueExtent Dtype.trueUb Dtype.trueLb
  cases hd : t.disps with
  | nil => simpa using hle
  | cons d ds =>
    rw [hd] at h
    have hfirst := h d List.mem_cons_self
    have hlb := foldl_min_ge (l := d :: ds) (a := d) hfirst.1 fun d' hd' => (h d' hd').1
    have hub : (d :: ds).foldl max d ≤ hi - t.elemSize := foldl_max_le (by omega) fun d' hd' => by
      have := (h d' hd').2
      omega
    simp only [List.headD_cons, reduceCtorEq, if_false]
    omega

/-- What the datatype method needs of a segment: its distances are multiples of
the type size, and the local one is small enough for an `int`. -/
structure Gmr.Aligned (mreg : Gmr) (proc k : Nat) (baseLoc : Int) (seg : Int × Int) : Prop where
  loc_dvd : (k : Int) ∣ seg.1 - baseLoc
  loc_ge : baseLoc ≤ seg.1
  loc_span : (seg.1 - baseLoc) / k ≤ intMax
  rem_dvd : (k : Int) ∣ seg.2 - (mreg.slice proc).base

def segDisps (k : Nat) (baseLoc winBase : Int) (seg : Int × Int) : Int × Int :=
  ((seg.1 - baseLoc) / k, (seg.2 - winBase) / k)

/-- An aligned segment whose distance fits an `int` passes the checks if its distance and
its number of elements are within the size. -/
theorem segmentFits_iff {k n : Nat} (hk : 0 < k) {baseLoc : Int} {seg : Int × Int}
    (ha : mreg.Aligned proc k baseLoc seg) (hge : (mreg.slice proc).base ≤ seg.2)
    (hdisp : (seg.2 - (mreg.slice proc).base) / k ≤ intMax) (winSize : Int) :
    SegmentFits baseLoc (mreg.slice proc).base winSize k n seg.1 seg.2 ↔
      (seg.2 - (mreg.slice proc).base) / k < winSize ∧
        seg.2 - (mreg.slice proc).base + n ≤ winSize := by
  have hkpos : (0 : Int) < k := by omega
  have hloc : 0 ≤ seg.1 - baseLoc := Int.sub_nonneg.mpr ha.loc_ge
  have hrem : 0 ≤ seg.2 - (mreg.slice proc).base := Int.sub_nonneg.mpr hge
  have hremDiv := Int.ediv_nonneg hrem hkpos.le
  have hsmall : i32 ((seg.2 - (mreg.slice proc).base).tdiv k) =
      (seg.2 - (mreg.slice proc).base) / k := by
    rw [Int.tdiv_eq_ediv_of_nonneg hrem, i32_of_range hremDiv hdisp]
  constructor
  · rintro ⟨-, -, -, ⟨-, hlt⟩, hlen⟩
    exact ⟨hsmall ▸ hlt, by omega⟩
  · rintro ⟨hlt, hlen⟩
    refine ⟨Int.tmod_eq_zero_of_dvd ha.loc_dvd, ?_, Int.tmod_eq_zero_of_dvd ha.rem_dvd, ?_, by omega⟩
    · rw [Int.tdiv_eq_ediv_of_nonneg hloc]
      exact ha.loc_span
    · rw [hsmall]
      exact ⟨hremDiv, hlt⟩

theorem segmentDisps_ok (hsize : (mreg.slice proc).size ≤ intMax) {k n : Nat} (hk : 0 < k)
    {baseLoc : Int} {seg : Int × Int} (ha : mreg.Aligned proc k baseLoc seg)
    (hh : mreg.Holds proc seg.2 (n * k)) :
    segmentDisps baseLoc (mreg.slice proc).base (i32 (mreg.slice proc).size) k n seg.1 seg.2 =
      .ok (segDisps k baseLoc (mreg.slice proc).base seg) := by
  obtain ⟨hge, hlt, hle⟩ := hh
  have hkpos : (0 : Int) < k := by omega
  have hloc : 0 ≤ seg.1 - baseLoc := Int.sub_nonneg.mpr ha.loc_ge
  have hrem : 0 ≤ seg.2 - (mreg.slice proc).base := by omega
  have hremLe := Int.ediv_le_self (k : Int) hrem
  have hn : n ≤ n * k := Nat.le_mul_of_pos_right n hk
  refine segmentDisps_eq_ok.mpr ⟨(segmentFits_iff hk ha hge (by omega) _).mpr ?_, ?_⟩
  · rw [i32_of_range (by omega) hsize]
    omega
  · rw [Int.tdiv_eq_ediv_of_nonneg hloc, Int.tdiv_eq_ediv_of_nonneg hrem,
      i32_of_range (Int.ediv_nonneg hloc hkpos.le) ha.loc_span,
      i32_of_range (Int.ediv_nonneg hrem hkpos.le) (by omega)]
    rfl

/-- Distances found are exact, also in a slice that is too large for an `int`: the
check of the length has seen to that. -/
theorem segmentDisps_exact {k n : Nat} (hk : 0 < k) {baseLoc : Int} {seg d : Int × Int}
    (hge : baseLoc ≤ seg.1) (hh : mreg.Holds proc seg.2 (n * k))
    (hrun : segmentDisps baseLoc (mreg.slice proc).base (i32 (mreg.slice proc).size) k n seg.1 seg.2 =
      .ok d) :
    mreg.Aligned proc k baseLoc seg ∧ d = segDisps k baseLoc (mreg.slice proc).base seg := by
  obtain ⟨⟨hmod, hspan, hremMod, -, hlen⟩, rfl⟩ := segmentDisps_eq_ok.mp hrun
  have hkpos : (0 : Int) < k := by omega
  have hloc : 0 ≤ seg.1 - baseLoc := Int.sub_nonneg.mpr hge
  have hrem : 0 ≤ seg.2 - (mreg.slice proc).base := Int.sub_nonneg.mpr hh.ge
  have hsmall := i32_le (mreg.slice proc).size
  have hremLe := Int.ediv_le_self (k : Int) hrem
  rw [Int.tdiv_eq_ediv_of_nonneg hloc] at hspan ⊢
  rw [Int.tdiv_eq_ediv_of_nonneg hrem, i32_of_range (Int.ediv_nonneg hloc hkpos.le) hspan,
    i32_of_range (Int.ediv_nonneg hrem hkpos.le) (by omega)]
  exact ⟨⟨Int.dvd_of_tmod_eq_zero hmod, hge, hspan, Int.dvd_of_tmod_eq_zero hremMod⟩, rfl⟩

theorem elems_indexedBlock (b : BaseType) (n : Nat) (base : Int) (ds : List Int) :
    ((((Dtype.predefined b).indexedBlock n ds).elems 1).map (base + ·)) =
      ds.flatMap fun d => (List.range n).map fun (j : Nat) => base + d * b.size + j * b.size := by
  rw [elems_one, disps_indexedBlock, List.map_flatMap]
  refine List.flatMap_congr fun d _ => ?_
  rw [List.map_map]
  refine List.map_congr_left fun j _ => ?_
  simp only [Function.comp_apply, Int.add_mul]
  omega

theorem sends_gmrChunk (hr : Reaches env mreg proc win g) (hpos : 0 < (mreg.slice proc).size)
    {n : Nat} (baseLoc : Int) {ds : List (Int × Int)}
    (hds : ∀ d ∈ ds, 0 ≤ d.2 ∧ (d.2 + n) * b.size ≤ (mreg.slice proc).size) (handle : Option Nat)
    (h : List Act) :
    ∃ acts, gmrChunk env kind mreg baseLoc n (.predefined b) proc handle ds h = (.ok (), acts) ∧
      Sends kind b win g acts (ds.flatMap fun d => segPairs b.size n
        (baseLoc + d.1 * b.size, (mreg.slice proc).base + d.2 * b.size)) := by
  obtain ⟨atomic, heq⟩ : ∃ atomic, gmrChunk env kind mreg baseLoc n (.predefined b) proc handle ds =
      gmrRmaTyped env kind atomic mreg baseLoc 1 ((Dtype.predefined b).indexedBlock n (ds.map Prod.fst))
        0 1 ((Dtype.predefined b).indexedBlock n (ds.map Prod.snd)) proc handle := by
    cases kind <;> exact ⟨_, rfl⟩
  have hextent : ((Dtype.predefined b).indexedBlock n (ds.map Prod.snd)).trueExtent ≤
      (mreg.slice proc).size - 0 := by
    refine trueExtent_le hpos.le fun x hx => ?_
    rw [disps_indexedBlock] at hx
    obtain ⟨d, hd, hx⟩ := List.mem_flatMap.mp hx
    obtain ⟨seg, hseg, rfl⟩ := List.mem_map.mp hd
    obtain ⟨j, hj, rfl⟩ := List.mem_map.mp hx
    obtain ⟨h₀, h₁⟩ := hds seg hseg
    have hj' := List.mem_range.mp hj
    have hsize := b.size_pos
    show 0 ≤ (seg.2 + (j : Int)) * b.size ∧ (seg.2 + (j : Int)) * b.size + b.size ≤ _
    have hnext : (seg.2 + (j : Int) + 1) * b.size ≤ (seg.2 + n) * b.size :=
      Int.mul_le_mul_of_nonneg_right (by omega) (by omega)
    rw [Int.add_mul _ 1, Int.one_mul] at hnext
    exact ⟨Int.mul_nonneg (by omega) (by omega), by omega⟩
  have hcover : mreg.Covers proc 0 1 ((Dtype.predefined b).indexedBlock n (ds.map Prod.snd)) := by
    have hdisp : mreg.disp proc 0 = 0 := if_pos rfl
    exact ⟨by omega, by omega, by rw [hdisp]; omega⟩
  rw [heq, gmrRmaTyped_ok hr.ok hr.rank hcover]
  refine ⟨_, rfl, ?_⟩
  have hlen : (((Dtype.predefined b).indexedBlock n (ds.map Prod.fst)).elems 1).length =
      (((Dtype.predefined b).indexedBlock n (ds.map Prod.snd)).elems 1).length := by
    rw [elems_one, elems_one, disps_indexedBlock, disps_indexedBlock]
    simp [List.flatMap_map]
  have hsends := sends_rmaOf hr hpos kind atomic baseLoc 0 handle hlen
  rw [elems_indexedBlock, elems_indexedBlock, List.flatMap_map, List.flatMap_map,
    zip_flatMap (by simp)] at hsends
  change Sends kind b win g _ _ at hsends
  simpa [Gmr.remoteBase, segPairs, List.zip_map', Function.comp_def] using hsends

theorem zip_orient (kind : RmaKind) (src dst : List Int) :
    (localOf kind src dst).zip (remoteOf kind src dst) = (src.zip dst).map (orient kind) := by
  cases kind with
  | put | acc => exact (List.map_id _).symm
  | get => exact (List.zip_swap src dst).symm

theorem segDisps_pairs {k n : Nat} {baseLoc : Int} {seg : Int × Int}
    (ha : mreg.Aligned proc k baseLoc seg) :
    segPairs k n (baseLoc + (segDisps k baseLoc (mreg.slice proc).base seg).1 * k,
      (mreg.slice proc).base + (segDisps k baseLoc (mreg.slice proc).base seg).2 * k) =
      segPairs k n seg := by
  have hloc := Int.ediv_mul_cancel ha.loc_dvd
  have hrem := Int.ediv_mul_cancel ha.rem_dvd
  simp only [segDisps, hloc, hrem]
  congr 1
  exact Prod.ext (by simp) (by simp)

theorem sends_datatype {src dst : List Int}
    (hlook : gmrLookup env ((remoteOf kind src dst).headD 0) proc = .ok (some mreg))
    (hr : Reaches env mreg proc win g) {n : Nat} (hne : src.zip dst ≠ [])
    (hsegs : ∀ seg ∈ src.zip dst, mreg.Holds proc (orient kind seg).2 (n * b.size))
    (halign : ∀ seg ∈ src.zip dst,
      mreg.Aligned proc b.size (lowest (localOf kind src dst)) (orient kind seg))
    (hdisps : ((src.zip dst).map (orient kind)).mapM (fun seg =>
      segmentDisps (lowest (localOf kind src dst)) (mreg.slice proc).base (i32 (mreg.slice proc).size)
        b.size n seg.1 seg.2) = .ok (((src.zip dst).map (orient kind)).map
          (segDisps b.size (lowest (localOf kind src dst)) (mreg.slice proc).base)))
    (blocking : Bool) (handle : Option Nat) (h : List Act) :
    ∃ acts, iovOpDatatype env kind src dst n (.predefined b) proc blocking handle h =
        (.ok (), acts ++ closing env kind win g blocking) ∧
      Sends kind b win g acts (allPairs kind b.size n (src.zip dst)) := by
  have htype : (Dtype.predefined b).size = b.size := Nat.mul_one _
  rw [iovOpDatatype, hlook, lift_ok_bind, found, lift_ok_bind]
  dsimp only
  rw [zip_orient, htype, hdisps, lift_ok_bind]
  generalize hds : ((src.zip dst).map (orient kind)).map (segDisps _ _ _) = ds
  have hcount : 0 < ds.length := by simpa [← hds] using List.length_pos_iff.mpr hne
  have hflat := chunks_flatten (chunkSize_pos env hcount) (le_refl ds.length)
  have hchunk : ∀ c ∈ chunks (chunkSize env ds.length) ds.length ds, ∀ h', ∃ acts,
      gmrChunk env kind mreg (lowest (localOf kind src dst)) n (.predefined b) proc handle c h' =
        (.ok (), acts) ∧ Sends kind b win g acts (c.flatMap fun d => segPairs b.size n
          (lowest (localOf kind src dst) + d.1 * b.size,
            (mreg.slice proc).base + d.2 * b.size)) := by
    intro c hc h'
    refine sends_gmrChunk hr (hsegs _ (List.head_mem hne)).pos _ (fun d hd => ?_) handle h'
    have hmem : d ∈ ds := hflat ▸ List.mem_flatten_of_mem hc hd
    rw [← hds, List.map_map] at hmem
    obtain ⟨seg, hseg, rfl⟩ := List.mem_map.mp hmem
    obtain ⟨hge, hlt, hle⟩ := hsegs seg hseg
    have hrem := Int.ediv_mul_cancel (halign seg hseg).rem_dvd
    refine ⟨Int.ediv_nonneg (by omega) (by omega), ?_⟩
    rw [Int.add_mul]
    simp only [Function.comp_apply, segDisps, hrem]
    push_cast at hle
    omega
  obtain ⟨a, ha, hsa⟩ := sends_forEach hchunk h
  refine ⟨a, bind_ok ha ?_, ?_⟩
  · have hflag : (kind != .get && ds.length != 0) = (kind != .get) := by
      rw [bne_iff_ne.mpr (Nat.ne_of_gt hcount), Bool.and_true]
    rw [hflag]
    exact gmrFlush_closing hr kind blocking (h ++ a)
  · have hall : ∀ f : Int × Int → List (Int × Int),
        (chunks (chunkSize env ds.length) ds.length ds).flatMap (fun c => c.flatMap f) =
          ds.flatMap f := fun f => by
      conv_rhs => rw [← hflat, ← List.flatMap_id, List.flatMap_assoc]
      rfl
    rw [hall, ← hds, List.map_map, List.flatMap_map] at hsa
    rwa [allPairs, ← List.flatMap_congr fun seg hseg => segDisps_pairs (halign seg hseg)]

theorem sends_iovOpDatatype {src dst : List Int}
    (hlook : gmrLookup env ((remoteOf kind src dst).headD 0) proc = .ok (some mreg))
    (hr : Reaches env mreg proc win g) (hsize : (mreg.slice proc).size ≤ intMax) {n : Nat}
    (hne : src.zip dst ≠ [])
    (hsegs : ∀ seg ∈ src.zip dst, mreg.Holds proc (orient kind seg).2 (n * b.size))
    (halign : ∀ seg ∈ src.zip dst,
      mreg.Aligned proc b.size (lowest (localOf kind src dst)) (orient kind seg))
    (blocking : Bool) (handle : Option Nat) (h : List Act) :
    ∃ acts, iovOpDatatype env kind src dst n (.predefined b) proc blocking handle h =
        (.ok (), acts ++ closing env kind win g blocking) ∧
      Sends kind b win g acts (allPairs kind b.size n (src.zip dst)) := by
  refine sends_datatype hlook hr hne hsegs halign (mapM_ok fun seg hseg => ?_) blocking handle h
  obtain ⟨s, hs, rfl⟩ := List.mem_map.mp hseg
  exact segmentDisps_ok hsize b.size_pos (halign s hs) (hsegs s hs)

end

end ArmciMpi
