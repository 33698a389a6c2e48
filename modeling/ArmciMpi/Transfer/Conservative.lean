import ArmciMpi.Transfer.Guard
import ArmciMpi.Transfer.Release
import ArmciMpi.Transfer.Spanning

/-!
# Conservative vectors

A vector whose remote segments overlap is sent segment by segment with a flush
after each. For a put this flush is a local one, unless `ARMCI_NO_FLUSH_LOCAL`
makes it a full one: the puts before it have left the origin but need not have
arrived. `PutEntry` says what `PARMCI_PutV` does for one entry; from it follow
the operations it issues, which of them can be outstanding together, and that
it completes what it must.
-/

namespace ArmciMpi

open Lib Script

-- ------------------------------
-- Outstanding operations
-- ------------------------------

def Rma.Meets (op op' : Rma) : Prop :=
  ∃ a ∈ op.targetElems, ∃ a' ∈ op'.targetElems,
    a < a' + op'.originType.elemSize ∧ a' < a + op.originType.elemSize

/-- No two operations that write a common byte are incomplete at the target together. -/
def NeverMeet (acts : List Act) : Prop :=
  ∀ pre, pre <+: acts → (pending .target pre).Pairwise fun op op' => ¬ op.Meets op'

def Act.Defers (a : Act) : Prop := ∀ op, ¬ a.Completes .target op

theorem pendingStep_sublist (side : Side) {P Q : List Rma} (h : P.Sublist Q) (a : Act) :
    (Act.pendingStep side P a).Sublist (Q ++ a.issues) :=
  (List.filter_sublist.trans h).append_right _

theorem pending_sublist (side : Side) (acts : List Act) : (pending side acts).Sublist (issued acts) := by
  have hfold : ∀ (acts : List Act) (P Q : List Rma), P.Sublist Q →
      (acts.foldl (Act.pendingStep side) P).Sublist (Q ++ issued acts) := by
    intro acts
    induction acts with
    | nil => exact fun P Q h => by simpa [issued] using h
    | cons a acts ih =>
      intro P Q h
      have hrest := ih _ _ (pendingStep_sublist side h a)
      rwa [List.append_assoc] at hrest
  exact hfold acts [] [] (.refl _)

theorem pending_eq_issued {acts : List Act} (h : ∀ a ∈ acts, a.Defers) :
    pending .target acts = issued acts := by
  have hfold : ∀ (acts : List Act) (P : List Rma), (∀ a ∈ acts, a.Defers) →
      acts.foldl (Act.pendingStep .target) P = P ++ issued acts := by
    intro acts
    induction acts with
    | nil => exact fun P _ => (List.append_nil P).symm
    | cons a acts ih =>
      intro P h
      obtain ⟨hfirst, hrest⟩ := List.forall_mem_cons.mp h
      have hkeep : Act.pendingStep .target P a = P ++ a.issues := by
        rw [Act.pendingStep, List.filter_eq_self.mpr fun op _ => by simpa using hfirst op]
      rw [List.foldl_cons, hkeep, ih _ hrest, List.append_assoc]
      rfl
  exact hfold acts [] h

theorem issued_sublist {pre acts : List Act} (h : pre <+: acts) : (issued pre).Sublist (issued acts) := by
  obtain ⟨rest, rfl⟩ := h
  rw [issued_append]
  exact List.sublist_append_left _ _

theorem neverMeet_of_issued {acts : List Act}
    (h : (issued acts).Pairwise fun op op' => ¬ op.Meets op') : NeverMeet acts :=
  fun pre hpre => h.sublist ((pending_sublist .target pre).trans (issued_sublist hpre))

theorem NeverMeet.append {acts acts' : List Act} (h : NeverMeet acts)
    (hnil : pending .target acts = []) (h' : NeverMeet acts') : NeverMeet (acts ++ acts') := by
  intro pre hpre
  obtain ⟨rest, heq⟩ := hpre
  rcases List.append_eq_append_iff.mp heq with ⟨more, hacts, -⟩ | ⟨more, rfl, hacts⟩
  · exact h pre ⟨more, hacts.symm⟩
  · rw [pending_append_of_nil hnil]
    exact h' more ⟨rest, hacts.symm⟩

-- ------------------------------
-- Segment by segment
-- ------------------------------

def putOp (env : Env) (mreg : Gmr) (win : Win) (proc g n : Nat) (seg : Int × Int) : Rma :=
  rmaOf env .put env.cfg.rmaAtomicity mreg win seg.1 n (.predefined .byte) seg.2 n
    (.predefined .byte) proc g none

def consrvActs (env : Env) (mreg : Gmr) (win : Win) (proc g n : Nat) (segs : List (Int × Int)) :
    List Act :=
  segs.flatMap fun seg => [.rma (putOp env mreg win proc g n seg), flushAct env true win g]

section
variable {env : Env} {mreg : Gmr} {proc : Nat} {win : Win} {g n : Nat} {src dst : List Int}
  {segs : List (Int × Int)} {h acts : List Act}

theorem gmrSegment_put (hr : Reaches env mreg proc win g) {seg : Int × Int}
    (htakes : mreg.Takes proc n seg) (h : List Act) :
    gmrSegment env .put mreg seg.1 seg.2 n (.predefined .byte) proc none h =
      (.ok (), [.rma (putOp env mreg win proc g n seg)]) := by
  have hholds : mreg.Holds proc seg.2 (n * BaseType.byte.size) := by
    rw [show n * BaseType.byte.size = n from Nat.mul_one n]
    exact htakes.holds
  have hcovers := (covers_iff (htakes.holds.ne_zero hr) n .byte).mpr hholds
  show (do
    require (seg.1 ≠ 0) "Invalid local address"
    gmrRmaTyped env .put env.cfg.rmaAtomicity mreg seg.1 n (.predefined .byte) seg.2 n
      (.predefined .byte) proc none : Script Act Unit) h = _
  rw [require_true htakes.nonnull, pure_bind_run, gmrRmaTyped_ok hr.ok hr.rank hcovers]
  rfl

theorem batchedLoop_consrv (hr : Reaches env mreg proc win g)
    (hsegs : ∀ seg ∈ segs, mreg.Takes proc n seg) {i : Nat} (hi : 0 < i) (h : List Act) :
    batchedLoop env .put mreg n (.predefined .byte) proc true true none i true segs h =
      (.ok true, segs.flatMap fun seg =>
        [flushAct env true win g, .rma (putOp env mreg win proc g n seg)]) := by
  induction segs generalizing i h with
  | nil => rfl
  | cons seg segs ih =>
    obtain ⟨hseg, hrest⟩ := List.forall_mem_cons.mp hsegs
    rw [batchedLoop, if_pos ⟨rfl, hi, .inl rfl⟩]
    have hone := bind_ok (gmrSegment_put hr hseg (h ++ [flushAct env true win g]))
      (q := fun _ => batchedLoop env .put mreg n (.predefined .byte) proc true true none (i + 1) true
        segs) (ih hrest (Nat.succ_pos i) _)
    exact (bind_ok (gmrFlush_ok hr.ok hr.rank true h) hone).trans rfl

theorem flatMap_shift {α β : Type} (x : β) (f : α → β) (l : List α) :
    (l.flatMap fun a => [x, f a]) ++ [x] = x :: l.flatMap fun a => [f a, x] := by
  induction l with
  | nil => rfl
  | cons a l ih => rw [List.flatMap_cons, List.append_assoc, ih]; rfl

theorem iovOpBatched_consrv (hok : SegsOk env .put .byte src dst n proc mreg)
    (hr : Reaches env mreg proc win g) (h : List Act) :
    iovOpBatched env .put src dst n (.predefined .byte) proc true true none h =
      (.ok (), consrvActs env mreg win proc g n (src.zip dst)) := by
  have htakes : ∀ seg ∈ src.zip dst, mreg.Takes proc n seg := by
    intro seg hseg
    have ht := hok.takes seg hseg
    rwa [show n * BaseType.byte.size = n from Nat.mul_one n] at ht
  obtain ⟨seg, segs, hsegs⟩ := List.exists_cons_of_ne_nil hok.nonempty
  rw [hsegs] at htakes ⊢
  obtain ⟨hfirst, hrest⟩ := List.forall_mem_cons.mp htakes
  have hloop : ∀ h, batchedLoop env .put mreg n (.predefined .byte) proc true true none 0 true
      (seg :: segs) h = (.ok true, .rma (putOp env mreg win proc g n seg) ::
        segs.flatMap fun seg => [flushAct env true win g, .rma (putOp env mreg win proc g n seg)]) := by
    intro h
    rw [batchedLoop, if_neg (by simp)]
    exact bind_ok (gmrSegment_put hr hfirst h) (batchedLoop_consrv hr hrest Nat.one_pos _)
  rw [iovOpBatched, hok.region, lift_ok_bind, found, lift_ok_bind, hsegs]
  refine (bind_ok (hloop h) (gmrFlush_closing hr .put true _)).trans ?_
  rw [closing, if_pos rfl, List.cons_append, show (RmaKind.put != .get) = true from rfl,
    flatMap_shift]
  rfl

theorem Act.IssuesTo.defers {a : Act} (h : a.IssuesTo win g) : a.Defers := fun op =>
  h.completes .target op

theorem flushAct_defers (hflush : env.cfg.endToEndFlush = false) (win : Win) (target : Int) :
    (flushAct env true win target).Defers := by
  simp [Act.Defers, flushAct, hflush, Act.Completes]

theorem defers_batchedLoop (hflush : env.cfg.endToEndFlush = false)
    (hr : Reaches env mreg proc win g) (n : Nat) (type : Dtype) (consrv blocking : Bool)
    (handle : Option Nat) (i : Nat) (segs : List (Int × Int)) :
    Emits Act.Defers (batchedLoop env .put mreg n type proc consrv blocking handle i true segs) := by
  induction segs generalizing i with
  | nil => exact emits_pure _
  | cons seg segs ih =>
    have hrest : Emits Act.Defers (do
        gmrSegment env .put mreg seg.1 seg.2 n type proc handle
        batchedLoop env .put mreg n type proc consrv blocking handle (i + 1) true segs) :=
      emits_bind (fun h a ha => (emits_gmrSegment hr _ _ _ _ _ _ h a ha).defers) fun _ => ih _
    refine emits_ite (fun _ => emits_bind (fun h a ha => ?_) fun _ => hrest) fun _ => hrest
    rw [gmrFlush_ok hr.ok hr.rank] at ha
    rw [List.mem_singleton.mp ha]
    exact flushAct_defers hflush win g

theorem dispatch_defers {overlapping sameAlloc : Bool} (hflush : env.cfg.endToEndFlush = false)
    (hrun : iovOpDispatch env .put src dst (n * BaseType.byte.size) (.predefined .byte) overlapping
      sameAlloc proc true none h = (.ok (), acts)) :
    ∃ a c, acts = a ++ [c] ∧ ∀ x ∈ a, x.Defers := by
  rcases iovOpDispatch_eq env proc .put .byte src dst n overlapping sameAlloc none with
    ⟨-, consrv, heq⟩ | ⟨-, heq⟩ <;> rw [heq] at hrun
  · obtain ⟨r, hlook, hrest⟩ := lift_bind_eq_ok.mp hrun
    obtain ⟨mreg, hfound, hrest⟩ := lift_bind_eq_ok.mp hrest
    obtain ⟨fl, a, b, hloop, hlast, rfl⟩ := bind_eq_ok.mp hrest
    obtain rfl := found_eq_ok.mp hfound
    obtain ⟨win, g, hr⟩ := gmrLookup_reaches hlook
    have hend : gmrFlush env mreg proc fl (h ++ a) = (.ok (), b) := hlast
    rw [gmrFlush_ok hr.ok hr.rank] at hend
    cases hend
    exact ⟨a, _, rfl, (defers_batchedLoop hflush hr _ _ _ _ _ _ _).mem hloop⟩
  · obtain ⟨r, hlook, hrest⟩ := lift_bind_eq_ok.mp hrun
    obtain ⟨mreg, hfound, hrest⟩ := lift_bind_eq_ok.mp hrest
    obtain ⟨disps, -, hrest⟩ := lift_bind_eq_ok.mp hrest
    obtain ⟨_, a, b, hloop, hlast, rfl⟩ := bind_eq_ok.mp hrest
    obtain rfl := found_eq_ok.mp hfound
    obtain ⟨win, g, hr⟩ := gmrLookup_reaches hlook
    have hend : gmrFlush env mreg proc (RmaKind.put != .get && disps.length != 0) (h ++ a) =
        (.ok (), b) := hlast
    rw [gmrFlush_ok hr.ok hr.rank] at hend
    cases hend
    refine ⟨a, _, rfl, fun x hx => ?_⟩
    exact ((emits_forEach fun ds _ => emits_gmrChunk hr _ _ _ _ _ ds).mem hloop x hx).defers

end

-- ------------------------------
-- One entry
-- ------------------------------

def byteAddrs (p : Int) (n : Nat) : List Int := (List.range n).map fun (j : Nat) => p + j

theorem mem_byteAddrs {p x : Int} {n : Nat} : x ∈ byteAddrs p n ↔ p ≤ x ∧ x < p + n := by
  simp only [byteAddrs, List.mem_map, List.mem_range]
  constructor
  · rintro ⟨j, hj, rfl⟩
    omega
  · rintro ⟨hle, hlt⟩
    exact ⟨(x - p).toNat, by omega, by omega⟩

theorem nodup_byteAddrs (p : Int) (n : Nat) : (byteAddrs p n).Nodup :=
  List.nodup_range.map fun i j hij => by omega

/-- Segments of the remote process, by address and size, that do not overlap. -/
def RemotesApart (l : List (Int × Nat)) : Prop :=
  l.Pairwise fun x y : Int × Nat => x.1 + x.2 ≤ y.1 ∨ y.1 + y.2 ≤ x.1

theorem nodup_bytes_iff {l : List (Int × Nat)} (hpos : ∀ x ∈ l, 0 < x.2) :
    (l.flatMap fun x => byteAddrs x.1 x.2).Nodup ↔ RemotesApart l := by
  rw [List.nodup_flatMap]
  constructor
  · rintro ⟨-, hdisj⟩
    refine hdisj.imp_of_mem fun {x y} hx hy hdisj => ?_
    by_contra hmeet
    rw [not_or, Int.not_le, Int.not_le] at hmeet
    have := hpos x hx
    have := hpos y hy
    exact hdisj (a := max x.1 y.1) (mem_byteAddrs.mpr (by omega)) (mem_byteAddrs.mpr (by omega))
  · intro hapart
    refine ⟨fun x _ => nodup_byteAddrs _ _, hapart.imp fun {x y} hxy a hx hy => ?_⟩
    have := mem_byteAddrs.mp hx
    have := mem_byteAddrs.mp hy
    omega

def Act.Idle (a : Act) : Prop := a.issues = [] ∧ ∀ side op, ¬ a.Completes side op

def remsOf (n : Nat) (segs : List Seg) : List (Int × Nat) := segs.map fun s => (s.rem, n)

/-- The actions of an entry of a put: its segments are prepared, sent, one by one if they
overlap, and released. -/
inductive PutEntry (env : Env) (mreg : Gmr) (proc : Nat) (arena : Set Int) (n : Nat)
    (segs : List Seg) : List Act → Prop
  | mk (a₁ a₂ a₃ win g) (staged : Staged env.me arena 1 n id segs a₁)
      (idle : ∀ a ∈ a₁ ++ a₃, a.Idle) (rest : actSteps env.me a₃ = [])
      (sends : Sends .put .byte win g a₂ ((segs.map Seg.sent).flatMap (segPairs 1 n)))
      (reach : Reaches env mreg proc win g)
      (takes : ∀ seg ∈ segs.map Seg.sent, mreg.Takes proc n seg)
      (defers : env.cfg.endToEndFlush = false → ∀ a ∈ a₂, a.Defers)
      (way : RemotesApart (remsOf n segs) ∨ a₂ ++ [flushAct env true win g] =
        consrvActs env mreg win proc g n (segs.map Seg.sent)) :
      PutEntry env mreg proc arena n segs (a₁ ++ (a₂ ++ [flushAct env true win g]) ++ a₃)

section
variable {env : Env} {mreg : Gmr} {proc : Nat} {arena : Set Int} {n : Nat} {segs : List Seg}
  {acts : List Act} {win : Win} {g : Nat}

theorem issued_idle {acts : List Act} (h : ∀ a ∈ acts, a.Idle) : issued acts = [] :=
  List.flatMap_eq_nil_iff.mpr fun a ha => (h a ha).1

theorem segPairs_snd (n : Nat) (seg : Int × Int) :
    (segPairs 1 n seg).map Prod.snd = byteAddrs seg.2 n := by
  simp [segPairs, byteAddrs, Function.comp_def]

theorem Sends.targets {kind : RmaKind} {b : BaseType} {pairs : List (Int × Int)}
    (h : Sends kind b win g acts pairs) :
    (issued acts).flatMap Rma.targetElems = pairs.map Prod.snd := by
  rw [← h.elems, List.map_flatMap]
  refine List.flatMap_congr fun op hop => ?_
  exact (List.map_snd_zip (h.lengths op hop).ge).symm

theorem sends_putOp (hr : Reaches env mreg proc win g) {seg : Int × Int}
    (htakes : mreg.Takes proc n seg) :
    Sends .put .byte win g [.rma (putOp env mreg win proc g n seg)] (segPairs 1 n seg) := by
  have hholds : mreg.Holds proc seg.2 (n * BaseType.byte.size) := by
    rw [show n * BaseType.byte.size = n from Nat.mul_one n]
    exact htakes.holds
  obtain ⟨acts, hrun, hsends⟩ :=
    sends_gmrSegment hr (show RmaKind.put.Fits .byte from .inr rfl) htakes.nonnull hholds none []
  rw [gmrSegment_put hr htakes] at hrun
  cases hrun
  exact hsends

theorem putOp_targetElems (hr : Reaches env mreg proc win g) {seg : Int × Int}
    (htakes : mreg.Takes proc n seg) :
    (putOp env mreg win proc g n seg).targetElems = byteAddrs seg.2 n := by
  have htargets := (sends_putOp hr htakes).targets
  rw [segPairs_snd] at htargets
  simpa [issued, Act.issues] using htargets

theorem remotesApart_of_check (hchecks : env.cfg.iovChecks = true) {ptrs : List Int} {size : Nat}
    (hpos : 0 < size) (hcheck : iovCheckOverlap env ptrs size = .ok false) :
    RemotesApart (ptrs.map fun p => (p, size)) := by
  obtain ⟨hagree, hiff, -⟩ := overlap_check_agrees env hchecks ptrs hpos
  have hfalse := Except.ok.inj (hagree.symm.trans hcheck)
  rw [RemotesApart, List.pairwise_map, List.pairwise_iff_getElem]
  intro i j hi hj hij
  by_contra hmeet
  rw [not_or, Int.not_le, Int.not_le] at hmeet
  have htrue := hiff.mpr ⟨i, j, _, _, hij, List.getElem?_eq_getElem hi, List.getElem?_eq_getElem hj,
    abs_lt.mpr (by constructor <;> dsimp only at hmeet <;> omega)⟩
  cases hfalse.symm.trans htrue

/-- What is asked of an entry: its remote segments lie in the region and outside scratch
memory, and so do the local ones, which are not null. -/
structure EntryOk (env : Env) (proc : Nat) (arena : Set Int) (mreg : Gmr) (iov : Giov) : Prop where
  region : mreg ∈ env.regions
  holds : ∀ p ∈ iov.dstPtrArray, mreg.Holds proc p iov.bytes
  outside : ∀ p ∈ iov.dstPtrArray, block (proc, p) iov.bytes ⊆ (scratch env.me arena)ᶜ
  nonnull : ∀ u ∈ iov.srcPtrArray, u ≠ 0
  start : ∀ u ∈ iov.srcPtrArray, u ∉ arena
  user : ∀ u ∈ iov.srcPtrArray, block (env.me, u) iov.bytes ⊆ (scratch env.me arena)ᶜ

theorem Act.Local.idle {a : Act} (h : a.Local) : a.Idle := by
  cases a <;> first | exact h.elim | exact ⟨rfl, fun _ _ => id⟩

theorem freeActs_idle (bufs : List (Int × Int)) : ∀ a ∈ freeActs bufs, a.Idle := by
  intro a ha
  obtain ⟨p, -, rfl⟩ := List.mem_map.mp ha
  exact ⟨rfl, fun _ _ => id⟩

theorem putVEntry_entry {iov : Giov} {h : List Act} (hchecks : env.cfg.iovChecks = true)
    (ha : env.Allocs arena) (hapart : env.SlicesApart proc) (hok : EntryOk env proc arena mreg iov)
    (hnop : ¬ iov.Nop) (hrun : putVEntry env proc true none iov h = (.ok (), acts)) :
    ∃ segs, segs.map Seg.asked = iov.srcPtrArray.zip iov.dstPtrArray ∧
      PutEntry env mreg proc arena iov.bytes segs acts := by
  have hpos : 0 < iov.bytes := Nat.pos_of_ne_zero fun h0 => hnop (.inr h0)
  have hlen := iov.len_eq
  have hlives : VecCall.put.Lives env proc arena iov :=
    ⟨fun rem hrem => ⟨mreg, hok.region, hok.holds rem hrem⟩, hok.nonnull, hok.start⟩
  obtain ⟨overlapping, same, ⟨bufs, slot⟩, a₁, b, a₃, hover, -, hprep, hdisp, hfin, rfl⟩ :=
    VecCall.entry_eq_ok (v := .put) hnop hrun
  have hsegs := VecCall.segsOk ha hapart hnop hlives (Nat.one_dvd _) hok.region hok.holds hprep
  change SegsOk env .put .byte bufs iov.dstPtrArray (iov.bytes / 1) proc mreg at hsegs
  rw [Nat.div_one] at hsegs
  obtain ⟨_, _, _, hread, hpure, heq⟩ := bind_eq_ok.mp hprep
  cases hpure
  rw [List.append_nil] at heq
  subst heq
  obtain ⟨hb, hprepared, hself⟩ := prepared_bufPrepareReadVec ha hok.start hread
  have hfree : bufFinishReadVec env iov.srcPtrArray bufs _ = (.ok (), a₃) := hfin
  rw [bufFinishReadVec_run _ _ _ hself] at hfree
  cases hfree
  have hbytes : iov.bytes * BaseType.byte.size = iov.bytes := Nat.mul_one _
  have hdisp' : iovOpDispatch env .put bufs iov.dstPtrArray (iov.bytes * BaseType.byte.size)
      (.predefined .byte) overlapping same proc true none (h ++ a₁) = (.ok (), b) := by
    rw [hbytes]
    exact hdisp
  obtain ⟨a₂, win, g, hr, rfl, hsends⟩ := sendsOn_iovOpDispatch hsegs hdisp'
  have hsent : (mkSegs iov.srcPtrArray bufs iov.dstPtrArray).map Seg.sent =
      bufs.zip iov.dstPtrArray := mkSegs_sent hb hlen
  have hrems : remsOf iov.bytes (mkSegs iov.srcPtrArray bufs iov.dstPtrArray) =
      iov.dstPtrArray.map fun p => (p, iov.bytes) := by
    have hmap := congrArg (List.map fun p => (p, iov.bytes)) (mkSegs_map_rem hb hlen)
    rwa [List.map_map] at hmap
  refine ⟨mkSegs iov.srcPtrArray bufs iov.dstPtrArray, mkSegs_asked hb hlen, ?_⟩
  rw [← List.append_assoc]
  refine .mk a₁ a₂ _ win g ?_ ?_ (freeActs_steps _ _) ?_ hr ?_ ?_ ?_
  · exact Prepared.staged (mkSegs_bufs hb hlen) (by rwa [Nat.mul_one])
      fun s hs => by rw [Nat.mul_one]; exact hok.user _ (mem_mkSegs hb hlen hs).1
  · intro a hmem
    rcases List.mem_append.mp hmem with hmem | hmem
    · exact ((emits_bufPrepareReadVec _ _ _).mem hread a hmem).idle
    · exact freeActs_idle _ a hmem
  · rw [hsent]
    exact (List.map_id (bufs.zip iov.dstPtrArray)) ▸ hsends
  · rw [hsent]
    exact fun seg hseg => hbytes ▸ hsegs.takes seg hseg
  · intro hflush
    obtain ⟨a, c, heq, hdefers⟩ := dispatch_defers hflush hdisp'
    rwa [(List.append_inj' heq rfl).1]
  · cases overlapping with
    | false => exact .inl (hrems ▸ remotesApart_of_check hchecks hpos hover)
    | true =>
      rw [iovOpDispatch_overlapping, iovOpBatched_consrv hsegs hr] at hdisp'
      rw [hsent]
      exact .inr (Prod.mk.inj hdisp').2.symm

-- ------------------------------
-- Its operations
-- ------------------------------

theorem pairwise_meets_iff {ops : List Rma} (hone : ∀ op ∈ ops, op.originType.elemSize = 1)
    (hnodup : ∀ op ∈ ops, op.targetElems.Nodup) :
    (ops.Pairwise fun op op' => ¬ op.Meets op') ↔ (ops.flatMap Rma.targetElems).Nodup := by
  rw [List.nodup_flatMap]
  constructor
  · intro h
    refine ⟨hnodup, h.imp_of_mem fun {op op'} hop hop' hmeet a ha ha' => hmeet ?_⟩
    rw [Rma.Meets, hone op hop, hone op' hop']
    exact ⟨a, ha, a, ha', by omega, by omega⟩
  · rintro ⟨-, h⟩
    refine h.imp_of_mem fun {op op'} hop hop' hdisj => ?_
    rw [Rma.Meets, hone op hop, hone op' hop']
    rintro ⟨a, ha, a', ha', hlt, hlt'⟩
    obtain rfl : a = a' := by omega
    exact hdisj ha ha'

theorem issued_flush (env : Env) (localOnly : Bool) (win : Win) (target : Int) :
    issued [flushAct env localOnly win target] = [] := by
  simp [issued, flushAct_issues]

theorem remsOf_bytes (n : Nat) (segs : List Seg) :
    (remsOf n segs).flatMap (fun x => byteAddrs x.1 x.2) = segs.flatMap fun s => byteAddrs s.rem n := by
  rw [remsOf, List.flatMap_map]

theorem issued_consrvActs (segs : List (Int × Int)) :
    issued (consrvActs env mreg win proc g n segs) = segs.map (putOp env mreg win proc g n) := by
  induction segs with
  | nil => rfl
  | cons seg segs ih =>
    have hcons : consrvActs env mreg win proc g n (seg :: segs) =
        [.rma (putOp env mreg win proc g n seg)] ++ [flushAct env true win g] ++
          consrvActs env mreg win proc g n segs := rfl
    rw [hcons, issued_append, issued_append, issued_flush, ih]
    rfl

theorem consrvActs_flushed (hflush : env.cfg.endToEndFlush = true) (segs : List (Int × Int)) :
    pending .target (consrvActs env mreg win proc g n segs) = [] ∧
      NeverMeet (consrvActs env mreg win proc g n segs) := by
  have hfull : flushAct env true win g = .flush win g := by simp [flushAct, hflush]
  induction segs with
  | nil => exact ⟨rfl, neverMeet_of_issued .nil⟩
  | cons seg segs ih =>
    have hcons : consrvActs env mreg win proc g n (seg :: segs) =
        [.rma (putOp env mreg win proc g n seg)] ++ [.flush win g] ++
          consrvActs env mreg win proc g n segs := by
      rw [← hfull]
      rfl
    have hall : ∀ op ∈ issued [.rma (putOp env mreg win proc g n seg)],
        (Act.flush win g).Completes .target op := by
      intro op hop
      obtain rfl := List.mem_singleton.mp hop
      exact ⟨rfl, rfl⟩
    have hnil := pending_snoc_nil hall rfl
    rw [hcons, pending_append_of_nil hnil]
    exact ⟨ih.1, (neverMeet_of_issued (List.pairwise_singleton _ _)).append hnil ih.2⟩

namespace PutEntry

theorem issued_eq (h : PutEntry env mreg proc arena n segs acts) :
    ∃ a₂ win g, issued acts = issued a₂ ∧ Reaches env mreg proc win g ∧
      Sends .put .byte win g a₂ ((segs.map Seg.sent).flatMap (segPairs 1 n)) := by
  obtain ⟨a₁, a₂, a₃, win, g, -, hidle, -, hsends, hr, -, -, -⟩ := h
  refine ⟨a₂, win, g, ?_, hr, hsends⟩
  rw [issued_append, issued_append, issued_append, issued_flush,
    issued_idle fun a ha => hidle a (List.mem_append_left _ ha),
    issued_idle fun a ha => hidle a (List.mem_append_right _ ha), List.nil_append, List.append_nil,
    List.append_nil]

theorem targets (h : PutEntry env mreg proc arena n segs acts) :
    (issued acts).flatMap Rma.targetElems = segs.flatMap fun s => byteAddrs s.rem n := by
  obtain ⟨a₂, win, g, hissued, -, hsends⟩ := h.issued_eq
  rw [hissued, hsends.targets, List.map_flatMap, List.flatMap_map]
  exact List.flatMap_congr fun s _ => segPairs_snd n s.sent

theorem ops (h : PutEntry env mreg proc arena n segs acts) (hpos : 0 < n) :
    ∀ op ∈ issued acts, op.originType.elemSize = 1 ∧ op.targetElems.Nodup := by
  have htargets := h.targets
  obtain ⟨a₂, win, g, hissued, -, hsends⟩ := h.issued_eq
  intro op hop
  refine ⟨?_, ?_⟩
  · rw [hissued] at hop
    obtain ⟨a, ha, hop⟩ := List.mem_flatMap.mp hop
    cases hsends.each a ha with
    | rma op' hkind hbase hwin htarget =>
      rw [List.mem_singleton.mp hop, Dtype.elemSize, hbase]
      rfl
    | flush | flushLocal | setTarget => exact absurd hop List.not_mem_nil
  · obtain ⟨a₁, a₂, a₃, win, g, -, hidle, -, hsends, hr, htakes, -, hway⟩ := h
    rcases hway with hapart | hconsrv
    · have hnodup := (nodup_bytes_iff fun x hx => by
        obtain ⟨s, -, rfl⟩ := List.mem_map.mp hx
        exact hpos).mpr hapart
      rw [remsOf_bytes, ← htargets, List.nodup_flatMap] at hnodup
      exact hnodup.1 op hop
    · rw [issued_append, issued_append, hconsrv, issued_consrvActs,
        issued_idle fun a ha => hidle a (List.mem_append_left _ ha),
        issued_idle fun a ha => hidle a (List.mem_append_right _ ha), List.nil_append,
        List.append_nil] at hop
      obtain ⟨seg, hseg, rfl⟩ := List.mem_map.mp hop
      rw [putOp_targetElems hr (htakes seg hseg)]
      exact nodup_byteAddrs _ _

theorem defers (h : PutEntry env mreg proc arena n segs acts)
    (hflush : env.cfg.endToEndFlush = false) : ∀ a ∈ acts, a.Defers := by
  obtain ⟨a₁, a₂, a₃, win, g, -, hidle, -, -, -, -, hdefers, -⟩ := h
  intro a ha
  simp only [List.mem_append, List.mem_singleton] at ha
  rcases ha with (ha | ha | rfl) | ha
  · exact fun op => (hidle a (List.mem_append_left _ ha)).2 .target op
  · exact hdefers hflush a ha
  · exact flushAct_defers hflush win g
  · exact fun op => (hidle a (List.mem_append_right _ ha)).2 .target op

/-- With full flushes no two puts of an entry that meet are outstanding together, and none
is at the end. -/
theorem flushed (h : PutEntry env mreg proc arena n segs acts) (hpos : 0 < n)
    (hflush : env.cfg.endToEndFlush = true) : pending .target acts = [] ∧ NeverMeet acts := by
  have hops := h.ops hpos
  have htargets := h.targets
  obtain ⟨a₁, a₂, a₃, win, g, -, hidle, -, hsends, hr, htakes, -, hway⟩ := h
  have hfull : flushAct env true win g = .flush win g := by simp [flushAct, hflush]
  have hquiet : ∀ acts : List Act, (∀ a ∈ acts, a.Idle) →
      pending .target acts = [] ∧ NeverMeet acts := by
    intro acts hidle
    have hnil := issued_idle hidle
    refine ⟨List.eq_nil_of_sublist_nil (hnil ▸ pending_sublist .target acts), ?_⟩
    exact neverMeet_of_issued (hnil ▸ .nil)
  have hfirst := hquiet a₁ fun a ha => hidle a (List.mem_append_left _ ha)
  have hlast := hquiet a₃ fun a ha => hidle a (List.mem_append_right _ ha)
  have hsent : pending .target (a₂ ++ [flushAct env true win g]) = [] ∧
      NeverMeet (a₂ ++ [flushAct env true win g]) := by
    rcases hway with hapart | hconsrv
    · constructor
      · refine pending_snoc_nil (fun op hop => ?_) (flushAct_issues _ _ _ _)
        obtain ⟨-, hwin, htarget⟩ := hsends.issued_on hop
        rw [hfull]
        exact ⟨by rw [hwin], htarget⟩
      · have hnodup := (nodup_bytes_iff fun x hx => by
          obtain ⟨s, -, rfl⟩ := List.mem_map.mp hx
          exact hpos).mpr hapart
        rw [remsOf_bytes, ← htargets] at hnodup
        have hmeets := (pairwise_meets_iff (fun op hop => (hops op hop).1)
          fun op hop => (hops op hop).2).mpr hnodup
        refine neverMeet_of_issued (hmeets.sublist ?_)
        rw [issued_append (a₁ ++ _) a₃, issued_append a₁]
        exact (List.sublist_append_right _ _).trans (List.sublist_append_left _ _)
    · rw [hconsrv]
      exact consrvActs_flushed hflush _
  have hboth := hfirst.2.append hfirst.1 hsent.2
  have hnil : pending .target (a₁ ++ (a₂ ++ [flushAct env true win g])) = [] := by
    rw [pending_append_of_nil hfirst.1]
    exact hsent.1
  refine ⟨?_, hboth.append hnil hlast.2⟩
  rw [pending_append_of_nil hnil]
  exact hlast.1

end PutEntry

end

end ArmciMpi
