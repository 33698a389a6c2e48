import ArmciMpi.Transfer.Strided

/-!
# Releasing temporary buffers

A temporary buffer may be released when no operation of the call that uses it
is incomplete at the origin. The nonblocking operations keep to this in one of
three ways: they make no temporary buffer, they flush before they release it,
or they block. The exception is the scaled accumulate of vectors: with unguarded
buffers it neither blocks nor flushes, and releases the scaled source under
operations in flight unless every entry goes the conservative way.
`NbCall.Settled.safely` is the positive half for all nonblocking operations.
-/

namespace ArmciMpi

open Lib Script

inductive NbCall
  | put (src dst : Int) (size : Nat)
  | get (src dst : Int) (size : Nat)
  | acc (scale : Scale) (src dst : Int) (bytes : Nat)
  | putS (src : Int) (srcStride : Nat → Int) (dst : Int) (dstStride : Nat → Int)
      (count : Nat → Nat) (strideLevels : Nat)
  | getS (src : Int) (srcStride : Nat → Int) (dst : Int) (dstStride : Nat → Int)
      (count : Nat → Nat) (strideLevels : Nat)
  | accS (scale : Scale) (src : Int) (srcStride : Nat → Int) (dst : Int) (dstStride : Nat → Int)
      (count : Nat → Nat) (strideLevels : Nat)
  | putV (iov : List Giov)
  | getV (iov : List Giov)
  | accV (scale : Scale) (iov : List Giov)

def NbCall.run (env : Env) (proc : Nat) (handle : Option Nat) : NbCall → Script Act Unit
  | put src dst size => parmciNbPut env src dst size proc handle
  | get src dst size => parmciNbGet env src dst size proc handle
  | acc scale src dst bytes => parmciNbAcc env scale src dst bytes proc handle
  | putS src ss dst ds count levels => parmciNbPutS env src ss dst ds count levels proc handle
  | getS src ss dst ds count levels => parmciNbGetS env src ss dst ds count levels proc handle
  | accS scale src ss dst ds count levels =>
    parmciNbAccS env scale src ss dst ds count levels proc handle
  | putV iov => parmciNbPutV env iov proc handle
  | getV iov => parmciNbGetV env iov proc handle
  | accV scale iov => parmciNbAccV env scale iov proc handle

/-- At every release of a buffer allocated among the actions, no operation among
them that uses the buffer is incomplete at the origin. -/
def SafeRelease (acts : List Act) : Prop :=
  ∀ pre p post, acts = pre ++ .freeMem p :: post → ∀ n, .allocMem p n ∈ pre →
    ∀ op ∈ pending .origin pre, ¬ op.Touches p n

-- ------------------------------
-- The state that releases depend on
-- ------------------------------

def Quiet (P : List Rma) (a : Act) : Prop := ∀ p, a = .freeMem p → P = []

/-- What a script does to the operations incomplete at the origin, when it
releases memory only while there are none. -/
abbrev Releases (I : List Rma → Prop) (p : Script Act α) (J : α → List Rma → Prop) : Prop :=
  Triple (Act.pendingStep .origin) Quiet I p J

theorem allowed_quiet {acts : List Act} {P : List Rma}
    (h : Allowed (Act.pendingStep .origin) Quiet P acts) {pre : List Act} {p : Int}
    {post : List Act} (hacts : acts = pre ++ .freeMem p :: post) :
    pre.foldl (Act.pendingStep .origin) P = [] := by
  subst hacts
  exact (allowed_append.mp h).2.1 p rfl

theorem Releases.safe {I : List Rma → Prop} {p : Script Act α} {J : α → List Rma → Prop}
    (h : Releases I p J) (hI : I []) (done : List Act) : SafeRelease (p done).2 := by
  intro pre q post hacts n _ op hop
  have hnil := allowed_quiet (h done [] hI).1 hacts
  rw [pending, hnil] at hop
  cases hop

theorem allowed_of_noFree {acts : List Act} (h : ∀ a ∈ acts, a.NoFree) (P : List Rma) :
    Allowed (Act.pendingStep .origin) Quiet P acts := by
  induction acts generalizing P with
  | nil => trivial
  | cons a acts ih =>
    exact ⟨fun p hp => absurd hp (h a List.mem_cons_self p),
      ih (fun b hb => h b (List.mem_cons_of_mem a hb)) _⟩

theorem releases_of_noFree {p : Script Act α} (h : Emits Act.NoFree p) (I : List Rma → Prop) :
    Releases I p fun _ _ => True := fun done P _ =>
  ⟨allowed_of_noFree (h done) P, fun _ _ => trivial⟩

theorem releases_of_local {p : Script Act α} (h : Emits Act.Local p) (I : List Rma → Prop) :
    Releases I p fun _ => I := by
  intro done P hP
  refine ⟨allowed_of_noFree (fun a ha => (h done a ha).noFree) P, fun x _ => ?_⟩
  have hfold : ∀ acts : List Act, (∀ a ∈ acts, a.Local) →
      acts.foldl (Act.pendingStep .origin) P = P := by
    intro acts
    induction acts with
    | nil => exact fun _ => rfl
    | cons a acts ih =>
      intro hl
      rw [List.foldl_cons, (hl a List.mem_cons_self).pendingStep]
      exact ih fun b hb => hl b (List.mem_cons_of_mem a hb)
  rwa [hfold _ (h done)]

-- ------------------------------
-- Issuing and flushing
-- ------------------------------

def AllOn (win : Win) (g : Nat) (P : List Rma) : Prop := ∀ op ∈ P, op.On win g

section
variable {env : Env} {mreg : Gmr} {proc : Nat} {win : Win} {g : Nat}

theorem allOn_nil (win : Win) (g : Nat) : AllOn win g [] := fun _ h => absurd h List.not_mem_nil

/-- The action issues only operations to the process, and completes and releases
nothing. -/
def Act.IssuesTo (win : Win) (g : Nat) (a : Act) : Prop :=
  (∃ op, a = .rma op ∧ op.On win g) ∨ a.Local

theorem Act.IssuesTo.noFree {a : Act} (h : a.IssuesTo win g) : a.NoFree := by
  rcases h with ⟨op, rfl, -⟩ | h
  · exact fun p hp => by cases hp
  · exact h.noFree

theorem Act.IssuesTo.completes {a : Act} (h : a.IssuesTo win g) (side : Side) (op : Rma) :
    ¬ a.Completes side op := by
  rcases h with ⟨op, rfl, -⟩ | h
  · exact id
  · cases a <;> first | exact h.elim | exact id

theorem Act.IssuesTo.pendingStep {a : Act} (h : a.IssuesTo win g) {P : List Rma}
    (hP : AllOn win g P) : AllOn win g (Act.pendingStep .origin P a) := by
  rcases h with ⟨op, rfl, hop⟩ | h
  · intro op' hop'
    rcases List.mem_append.mp hop' with hop' | hop'
    · exact hP op' (List.mem_filter.mp hop').1
    · exact List.mem_singleton.mp hop' ▸ hop
  · rwa [h.pendingStep]

theorem releases_issues {p : Script Act α} (h : Emits (Act.IssuesTo win g) p) :
    Releases (AllOn win g) p fun _ => AllOn win g := by
  intro done P hP
  refine ⟨allowed_of_noFree (fun a ha => (h done a ha).noFree) P, fun x _ => ?_⟩
  have hacts := h done
  generalize (p done).2 = acts at hacts
  induction acts generalizing P with
  | nil => exact hP
  | cons a acts ih =>
    exact ih _ ((hacts a List.mem_cons_self).pendingStep hP)
      fun b hb => hacts b (List.mem_cons_of_mem a hb)

theorem emits_gmrRmaTyped (hr : Reaches env mreg proc win g) (kind : RmaKind) (atomic : Bool)
    (loc : Int) (locCount : Nat) (locType : Dtype) (rem : Int) (remCount : Nat) (remType : Dtype)
    (handle : Option Nat) :
    Emits (Act.IssuesTo win g)
      (gmrRmaTyped env kind atomic mreg loc locCount locType rem remCount remType proc handle) := by
  intro h a ha
  by_cases hc : mreg.Covers proc rem remCount remType
  · rw [gmrRmaTyped_ok hr.ok hr.rank hc] at ha
    rcases List.mem_cons.mp ha with rfl | ha
    · exact .inl ⟨_, rfl, rfl, rfl⟩
    · refine .inr ?_
      unfold handleActs at ha
      split at ha
      · split at ha
        · cases ha
        · rw [List.mem_singleton.mp ha]
          trivial
      · cases ha
  · obtain ⟨e, he⟩ := gmrRmaTyped_out_of_range hr.ok hc h
    rw [he] at ha
    cases ha

theorem emits_gmrSegment (hr : Reaches env mreg proc win g) (op : RmaKind) (src dst : Int)
    (elemCount : Nat) (type : Dtype) (handle : Option Nat) :
    Emits (Act.IssuesTo win g) (gmrSegment env op mreg src dst elemCount type proc handle) := by
  cases op <;> exact emits_bind (emits_require _ _) fun _ => emits_gmrRmaTyped hr _ _ _ _ _ _ _ _ _

theorem emits_gmrChunk (hr : Reaches env mreg proc win g) (op : RmaKind) (baseLoc : Int)
    (elemCount : Nat) (type : Dtype) (handle : Option Nat) (disps : List (Int × Int)) :
    Emits (Act.IssuesTo win g) (gmrChunk env op mreg baseLoc elemCount type proc handle disps) := by
  cases op <;> exact emits_gmrRmaTyped hr _ _ _ _ _ _ _ _ _

theorem releases_gmrFlush (hr : Reaches env mreg proc win g) (localOnly : Bool) :
    Releases (AllOn win g) (gmrFlush env mreg proc localOnly) fun _ P => P = [] := by
  intro done P hP
  rw [gmrFlush_ok hr.ok hr.rank]
  refine ⟨⟨fun p hp => ?_, trivial⟩, fun _ _ => ?_⟩
  · unfold flushAct at hp
    split at hp <;> cases hp
  · show Act.pendingStep .origin P (flushAct env localOnly win g) = []
    rw [Act.pendingStep, flushAct_issues, List.append_nil, List.filter_eq_nil_iff]
    intro op hop
    simpa using flushAct_completes_origin env localOnly (hP op hop)

theorem reaches_of_found {ptr : Int} {m : Option Gmr} {msg : String}
    (hm : gmrLookup env ptr proc = .ok m) (hf : found m msg = .ok mreg) :
    ∃ win g, Reaches env mreg proc win g := by
  obtain rfl := found_eq_ok.mp hf
  exact gmrLookup_reaches hm

theorem releases_found {ptr : Int} {msg : String} {I : List Rma → Prop} {q : Gmr → Script Act α}
    {K : α → List Rma → Prop}
    (hq : ∀ mreg win g, Reaches env mreg proc win g → Releases I (q mreg) K) :
    Releases I (do
      let m ← lift (gmrLookup env ptr proc)
      let mreg ← lift (found m msg)
      q mreg) K := by
  refine triple_bind (triple_lift _) fun m => triple_of_fact fun hm => ?_
  refine triple_bind (triple_lift _) fun mreg => triple_of_fact fun hf => ?_
  obtain ⟨win, g, hr⟩ := reaches_of_found hm hf
  exact hq mreg win g hr

-- ------------------------------
-- Vector operations
-- ------------------------------

theorem releases_batchedLoop (hr : Reaches env mreg proc win g) (op : RmaKind) (elemCount : Nat)
    (type : Dtype) (consrv blocking : Bool) (handle : Option Nat) (i : Nat) (flushLocal : Bool)
    (segs : List (Int × Int)) :
    Releases (AllOn win g) (batchedLoop env op mreg elemCount type proc consrv blocking handle i
      flushLocal segs) fun _ => AllOn win g := by
  induction segs generalizing i flushLocal with
  | nil => exact triple_pure _ fun _ hP => hP
  | cons seg segs ih =>
    have hrest : Releases (AllOn win g) (do
        gmrSegment env op mreg seg.1 seg.2 elemCount type proc handle
        batchedLoop env op mreg elemCount type proc consrv blocking handle (i + 1) (op != .get)
          segs) fun _ => AllOn win g :=
      triple_bind (releases_issues (emits_gmrSegment hr op seg.1 seg.2 elemCount type handle))
        fun _ => ih _ _
    unfold batchedLoop
    split
    · refine triple_bind (releases_gmrFlush hr flushLocal) fun _ => ?_
      exact Triple.mono hrest (fun P hP => hP ▸ allOn_nil win g) fun _ _ h => h
    · exact hrest

theorem releases_iovOpBatched (op : RmaKind) (src dst : List Int) (elemCount : Nat) (type : Dtype)
    (consrv : Bool) (handle : Option Nat) :
    Releases (· = []) (iovOpBatched env op src dst elemCount type proc consrv true handle)
      fun _ P => P = [] := by
  refine releases_found fun mreg win g hr => ?_
  refine triple_bind (J := fun _ => AllOn win g) ?_ fun flushLocal => releases_gmrFlush hr flushLocal
  exact Triple.mono (releases_batchedLoop hr op elemCount type consrv true handle 0 true _)
    (fun P hP => hP ▸ allOn_nil win g) fun _ _ h => h

theorem releases_iovOpDatatype (op : RmaKind) (src dst : List Int) (elemCount : Nat) (type : Dtype)
    (handle : Option Nat) :
    Releases (· = []) (iovOpDatatype env op src dst elemCount type proc true handle)
      fun _ P => P = [] := by
  refine releases_found fun mreg win g hr => ?_
  refine triple_bind (triple_lift _) fun disps => triple_of_fact fun _ => ?_
  refine triple_bind (J := fun _ => AllOn win g) ?_ fun _ => releases_gmrFlush hr _
  exact Triple.mono (releases_issues (emits_forEach fun ds _ =>
    emits_gmrChunk hr op (lowest _) elemCount type handle ds)) (fun P hP => hP ▸ allOn_nil win g)
    fun _ _ h => h

/-- The dispatch blocks when it is told to, or when it goes the conservative
way. -/
theorem releases_iovOpDispatch (op : RmaKind) (src dst : List Int) (size : Nat) (type : Dtype)
    {overlapping sameAlloc blocking : Bool} (handle : Option Nat)
    (hb : blocking = true ∨ overlapping = true ∨ sameAlloc = false ∨
      env.cfg.iovMethod = .consrv) :
    Releases (· = []) (iovOpDispatch env op src dst size type overlapping sameAlloc proc blocking
      handle) fun _ P => P = [] := by
  refine triple_bind (triple_require _ _) fun _ => triple_of_fact fun _ => ?_
  split
  · exact releases_iovOpBatched op src dst _ type true handle
  · rename_i hnot
    have hblock : blocking = true := by
      rcases hb with hb | hb | hb | hb
      · exact hb
      all_goals exact absurd (by simp [hb]) hnot
    subst hblock
    split
    · exact releases_iovOpDatatype op src dst _ type handle
    · exact releases_iovOpDatatype op src dst _ type handle
    · exact releases_iovOpBatched op src dst _ type false handle
    · exact triple_abort _

/-- Memory is released only while nothing is incomplete, and that stays so. -/
abbrev KeepsQuiet (p : Script Act α) : Prop := Releases (· = []) p fun _ P => P = []

theorem keepsQuiet_free (p : Int) : KeepsQuiet (emit (.freeMem p)) :=
  triple_emit fun P hP => ⟨fun _ _ => hP, by subst hP; rfl⟩

theorem keepsQuiet_frees (bufs : List (Int × Int)) :
    KeepsQuiet (forEach (fun (orig, new) =>
      if orig ≠ new then emit (.freeMem new) else pure ()) bufs) := by
  refine triple_forEach fun buf _ => ?_
  dsimp only
  split
  · exact keepsQuiet_free _
  · exact triple_pure () fun _ hP => hP

theorem keepsQuiet_of_local {p : Script Act α} (h : Emits Act.Local p) : KeepsQuiet p :=
  releases_of_local h _

theorem keepsQuiet_bufFinishReadVec (origBufs newBufs : List Int) :
    KeepsQuiet (bufFinishReadVec env origBufs newBufs) := by
  unfold bufFinishReadVec
  split
  · exact keepsQuiet_frees _
  · exact triple_pure () fun _ hP => hP

theorem keepsQuiet_bufFinishWriteVec (origBufs newBufs : List Int) (size : Nat) :
    KeepsQuiet (bufFinishWriteVec env origBufs newBufs size) := by
  unfold bufFinishWriteVec
  split
  · refine triple_forEach fun buf _ => ?_
    dsimp only
    split
    · refine triple_bind (triple_lift _) fun _ => triple_of_fact fun _ => ?_
      refine triple_bind (triple_require _ _) fun _ => triple_of_fact fun _ => ?_
      exact triple_bind (keepsQuiet_of_local (emits_armciCopy _ _ _)) fun _ => keepsQuiet_free _
    · exact triple_pure () fun _ hP => hP
  · exact triple_pure () fun _ hP => hP

theorem keepsQuiet_bufFinishAccVec (origBufs newBufs : List Int) (contig : Int) :
    KeepsQuiet (bufFinishAccVec origBufs newBufs contig) := by
  unfold bufFinishAccVec
  split
  · exact keepsQuiet_free _
  · exact keepsQuiet_frees _

theorem keepsQuiet_putVEntry (handle : Option Nat) (iov : Giov) :
    KeepsQuiet (putVEntry env proc true handle iov) := by
  unfold putVEntry
  split
  · exact triple_pure () fun _ hP => hP
  · refine triple_bind (triple_lift _) fun _ => triple_of_fact fun _ => ?_
    refine triple_bind (triple_lift _) fun _ => triple_of_fact fun _ => ?_
    refine triple_bind (keepsQuiet_of_local (emits_bufPrepareReadVec _ _ _)) fun _ => ?_
    refine triple_bind (releases_iovOpDispatch _ _ _ _ _ handle (.inl rfl)) fun _ => ?_
    exact keepsQuiet_bufFinishReadVec _ _

theorem keepsQuiet_getVEntry (handle : Option Nat) (iov : Giov) :
    KeepsQuiet (getVEntry env proc true handle iov) := by
  unfold getVEntry
  split
  · exact triple_pure () fun _ hP => hP
  · refine triple_bind (triple_lift _) fun _ => triple_of_fact fun _ => ?_
    refine triple_bind (triple_lift _) fun _ => triple_of_fact fun _ => ?_
    refine triple_bind (keepsQuiet_of_local (emits_bufPrepareWriteVec _ _ _)) fun _ => ?_
    refine triple_bind (releases_iovOpDispatch _ _ _ _ _ handle (.inl rfl)) fun _ => ?_
    exact keepsQuiet_bufFinishWriteVec _ _ _

def Conservative (env : Env) (proc : Nat) (iov : Giov) : Prop :=
  iovCheckOverlap env iov.dstPtrArray iov.bytes = .ok true ∨
    iovCheckSameAllocation env iov.dstPtrArray proc = .ok false ∨ env.cfg.iovMethod = .consrv

theorem keepsQuiet_accVEntry (scale : Scale) {blocking : Bool} (handle : Option Nat) {iov : Giov}
    (hb : blocking = true ∨ (¬ iov.Nop → Conservative env proc iov)) :
    KeepsQuiet (accVEntry env scale proc blocking handle iov) := by
  unfold accVEntry
  split
  · exact triple_pure () fun _ hP => hP
  · rename_i hnop
    refine triple_bind (triple_lift _) fun overlapping => triple_of_fact fun hov => ?_
    refine triple_bind (triple_lift _) fun sameAlloc => triple_of_fact fun hsame => ?_
    refine triple_bind (keepsQuiet_of_local (emits_bufPrepareAccVec _ _ _ _)) fun bufs => ?_
    refine triple_bind (releases_iovOpDispatch _ _ _ _ _ handle ?_) fun _ => ?_
    · rcases hb with hb | hb
      · exact .inl hb
      · rcases hb hnop with hc | hc | hc
        · exact .inr (.inl (by simpa using hov.symm.trans hc))
        · exact .inr (.inr (.inl (by simpa using hsame.symm.trans hc)))
        · exact .inr (.inr (.inr hc))
    · exact keepsQuiet_bufFinishAccVec _ _ _

-- ------------------------------
-- Contiguous and strided operations
-- ------------------------------

abbrev SafelyReleases (p : Script Act α) : Prop := Releases (· = []) p fun _ _ => True

theorem KeepsQuiet.safely {p : Script Act α} (h : KeepsQuiet p) : SafelyReleases p :=
  Triple.mono h (fun _ hP => hP) fun _ _ _ => trivial

/-- An operation is issued; if its buffer is temporary, it is completed and the
buffer released. -/
theorem safelyReleases_temporary (hr : Reaches env mreg proc win g) {issue last : Script Act Unit}
    (hissue : Emits (Act.IssuesTo win g) issue) (buf : Int) {c : Prop} [Decidable c]
    (hlast : Emits Act.Local last) :
    SafelyReleases (do
      issue
      if c then
        gmrFlush env mreg proc true
        emit (.freeMem buf)
      last) := by
  refine triple_bind (Triple.mono (releases_issues hissue) (fun P hP => hP ▸ allOn_nil win g)
    fun _ _ h => h) fun _ => ?_
  split
  · refine triple_bind (releases_gmrFlush hr true) fun _ => ?_
    exact triple_bind (keepsQuiet_free buf) fun _ => (keepsQuiet_of_local hlast).safely
  · exact releases_of_noFree (fun h a ha => (hlast h a ha).noFree) _

theorem emits_gmrAccumulate (hr : Reaches env mreg proc win g) (src dst : Int) (count : Nat)
    (type : Dtype) (handle : Option Nat) :
    Emits (Act.IssuesTo win g) (gmrAccumulate env mreg src dst count type proc handle) :=
  emits_bind (emits_require _ _) fun _ => emits_gmrRmaTyped hr _ _ _ _ _ _ _ _ _

theorem safelyReleases_nbAcc (scale : Scale) (src dst : Int) (bytes : Nat) (handle : Option Nat) :
    SafelyReleases (parmciNbAcc env scale src dst bytes proc handle) := by
  refine triple_bind (triple_lift _) fun srcMreg => triple_of_fact fun _ => ?_
  refine releases_found fun mreg win g hr => ?_
  refine triple_bind (keepsQuiet_of_local (emits_accSource _ _ _ _ _ _)) fun srcBuf => ?_
  refine triple_bind (triple_require _ _) fun _ => triple_of_fact fun _ => ?_
  exact safelyReleases_temporary hr (emits_gmrAccumulate hr _ _ _ _ _) _
    (emits_gmrProgress env)

-- ------------------------------
-- Unguarded buffers
-- ------------------------------

section
variable (env : Env) (mreg : Gmr) (proc : Nat)

theorem noFree_gmrFlush (localOnly : Bool) : Emits Act.NoFree (gmrFlush env mreg proc localOnly) :=
  emits_gmrFlush (fun _ _ p hp => by cases hp) (fun _ _ p hp => by cases hp) env mreg proc localOnly

theorem noFree_gmrRmaTyped (kind : RmaKind) (atomic : Bool) (loc : Int) (locCount : Nat)
    (locType : Dtype) (rem : Int) (remCount : Nat) (remType : Dtype) (handle : Option Nat) :
    Emits Act.NoFree
      (gmrRmaTyped env kind atomic mreg loc locCount locType rem remCount remType proc handle) := by
  refine emits_bind (emits_lift _) fun _ => emits_bind (emits_require _ _) fun _ => ?_
  refine emits_bind (emits_lift _) fun _ => emits_bind (emits_require _ _) fun _ => ?_
  refine emits_bind (emits_require _ _) fun _ =>
    emits_bind (emits_emit fun p hp => by cases hp) fun _ => ?_
  split
  · exact emits_ite (fun _ => emits_pure _) fun _ => emits_emit fun p hp => by cases hp
  · exact emits_pure _

theorem noFree_gmrSegment (op : RmaKind) (src dst : Int) (elemCount : Nat) (type : Dtype)
    (handle : Option Nat) :
    Emits Act.NoFree (gmrSegment env op mreg src dst elemCount type proc handle) := by
  cases op <;>
    exact emits_bind (emits_require _ _) fun _ => noFree_gmrRmaTyped _ _ _ _ _ _ _ _ _ _ _ _

theorem noFree_batchedLoop (op : RmaKind) (elemCount : Nat) (type : Dtype) (consrv blocking : Bool)
    (handle : Option Nat) (i : Nat) (flushLocal : Bool) (segs : List (Int × Int)) :
    Emits Act.NoFree (batchedLoop env op mreg elemCount type proc consrv blocking handle i
      flushLocal segs) := by
  induction segs generalizing i flushLocal with
  | nil => exact emits_pure _
  | cons seg segs ih =>
    have hrest : Emits Act.NoFree (do
        gmrSegment env op mreg seg.1 seg.2 elemCount type proc handle
        batchedLoop env op mreg elemCount type proc consrv blocking handle (i + 1) (op != .get)
          segs) := emits_bind (noFree_gmrSegment _ _ _ _ _ _ _ _ _) fun _ => ih _ _
    exact emits_ite (fun _ => emits_bind (noFree_gmrFlush _ _ _ _) fun _ => hrest) fun _ => hrest

theorem noFree_iovOpBatched (op : RmaKind) (src dst : List Int) (elemCount : Nat) (type : Dtype)
    (consrv blocking : Bool) (handle : Option Nat) :
    Emits Act.NoFree
      (iovOpBatched env op src dst elemCount type proc consrv blocking handle) := by
  refine emits_bind (emits_lift _) fun _ => emits_bind (emits_lift _) fun _ => ?_
  refine emits_bind (noFree_batchedLoop _ _ _ _ _ _ _ _ _ _ _ _) fun _ => ?_
  exact emits_ite (fun _ => noFree_gmrFlush _ _ _ _) fun _ => emits_pure _

theorem noFree_iovOpDatatype (op : RmaKind) (src dst : List Int) (elemCount : Nat) (type : Dtype)
    (blocking : Bool) (handle : Option Nat) :
    Emits Act.NoFree (iovOpDatatype env op src dst elemCount type proc blocking handle) := by
  refine emits_bind (emits_lift _) fun _ => emits_bind (emits_lift _) fun _ => ?_
  refine emits_bind (emits_lift _) fun _ => emits_bind (emits_forEach fun _ _ => ?_) fun _ => ?_
  · cases op <;> exact noFree_gmrRmaTyped _ _ _ _ _ _ _ _ _ _ _ _
  · exact emits_ite (fun _ => noFree_gmrFlush _ _ _ _) fun _ => emits_pure _

theorem noFree_iovOpDispatch (op : RmaKind) (src dst : List Int) (size : Nat) (type : Dtype)
    (overlapping sameAlloc blocking : Bool) (handle : Option Nat) :
    Emits Act.NoFree (iovOpDispatch env op src dst size type overlapping sameAlloc proc blocking
      handle) := by
  refine emits_bind (emits_require _ _) fun _ => emits_ite (fun _ => ?_) fun _ => ?_
  · exact noFree_iovOpBatched _ _ _ _ _ _ _ _ _ _
  · split
    · exact noFree_iovOpDatatype _ _ _ _ _ _ _ _ _
    · exact noFree_iovOpDatatype _ _ _ _ _ _ _ _ _
    · exact noFree_iovOpBatched _ _ _ _ _ _ _ _ _ _
    · exact emits_abort _

theorem Act.noFree_of_local {p : Script Act α} (h : Emits Act.Local p) : Emits Act.NoFree p :=
  fun done a ha => (h done a ha).noFree

variable {env}

theorem noFree_putVEntry (hcfg : env.cfg.shrBufMethod = .noguard) (blocking : Bool)
    (handle : Option Nat) (iov : Giov) :
    Emits Act.NoFree (putVEntry env proc blocking handle iov) := by
  refine emits_ite (fun _ => emits_pure _) fun _ => ?_
  refine emits_bind (emits_lift _) fun _ => emits_bind (emits_lift _) fun _ => ?_
  refine emits_bind (Act.noFree_of_local (emits_bufPrepareReadVec _ _ _)) fun _ => ?_
  refine emits_bind (noFree_iovOpDispatch _ _ _ _ _ _ _ _ _ _ _) fun _ => ?_
  simpa [bufFinishReadVec, hcfg] using emits_pure _

theorem noFree_getVEntry (hcfg : env.cfg.shrBufMethod = .noguard) (blocking : Bool)
    (handle : Option Nat) (iov : Giov) :
    Emits Act.NoFree (getVEntry env proc blocking handle iov) := by
  refine emits_ite (fun _ => emits_pure _) fun _ => ?_
  refine emits_bind (emits_lift _) fun _ => emits_bind (emits_lift _) fun _ => ?_
  refine emits_bind (Act.noFree_of_local (emits_bufPrepareWriteVec _ _ _)) fun _ => ?_
  refine emits_bind (noFree_iovOpDispatch _ _ _ _ _ _ _ _ _ _ _) fun _ => ?_
  simpa [bufFinishWriteVec, hcfg] using emits_pure _

theorem noFree_accVEntry (hcfg : env.cfg.shrBufMethod = .noguard) {scale : Scale}
    (hs : scale.accIsScaled = false) (blocking : Bool) (handle : Option Nat) (iov : Giov) :
    Emits Act.NoFree (accVEntry env scale proc blocking handle iov) := by
  refine emits_ite (fun _ => emits_pure _) fun _ => ?_
  refine emits_bind (emits_lift _) fun _ => emits_bind (emits_lift _) fun _ => ?_
  simp only [bufPrepareAccVec, hs, bufPrepareReadVec, hcfg, ne_eq, not_true, if_false, Bool.false_eq_true,
    pure_bind_run]
  refine emits_bind (noFree_iovOpDispatch _ _ _ _ _ _ _ _ _ _ _) fun _ => ?_
  refine emits_forEach fun buf hbuf => ?_
  rw [List.zip, List.zipWith_self] at hbuf
  obtain ⟨x, -, rfl⟩ := List.mem_map.mp hbuf
  simpa using emits_pure _

theorem noFree_nbPut (src dst : Int) (size : Nat) (handle : Option Nat) :
    Emits Act.NoFree (parmciNbPut env src dst size proc handle) := by
  refine emits_bind (emits_lift _) fun _ => emits_bind (emits_lift _) fun _ => ?_
  refine emits_bind (emits_lift _) fun mreg => emits_ite (fun _ => ?_) fun _ => ?_
  · exact Act.noFree_of_local (emits_bind (emits_armciCopy _ _ _) fun _ => emits_gmrProgress env)
  · refine emits_bind (emits_bind (emits_require _ _) fun _ => ?_) fun _ =>
      Act.noFree_of_local (emits_gmrProgress env)
    exact noFree_gmrRmaTyped _ _ _ _ _ _ _ _ _ _ _ _

theorem noFree_nbGet (src dst : Int) (size : Nat) (handle : Option Nat) :
    Emits Act.NoFree (parmciNbGet env src dst size proc handle) := by
  refine emits_bind (emits_lift _) fun _ => emits_bind (emits_lift _) fun _ => ?_
  refine emits_bind (emits_lift _) fun mreg => emits_ite (fun _ => ?_) fun _ => ?_
  · exact Act.noFree_of_local (emits_bind (emits_armciCopy _ _ _) fun _ => emits_gmrProgress env)
  · refine emits_bind (emits_bind (emits_require _ _) fun _ => ?_) fun _ =>
      Act.noFree_of_local (emits_gmrProgress env)
    exact noFree_gmrRmaTyped _ _ _ _ _ _ _ _ _ _ _ _

end

-- ------------------------------
-- The nonblocking operations
-- ------------------------------

theorem nbBlocking_or_noguard (env : Env) :
    nbBlocking env = true ∨ nbBlocking env = false ∧ env.cfg.shrBufMethod = .noguard := by
  unfold nbBlocking
  cases env.cfg.shrBufMethod <;> simp

theorem safelyReleases_entries {entry : Giov → Script Act Unit} {iovs : List Giov}
    (h : (∀ iov ∈ iovs, KeepsQuiet (entry iov)) ∨ ∀ iov ∈ iovs, Emits Act.NoFree (entry iov)) :
    SafelyReleases (do forEach entry iovs; gmrProgress env) := by
  rcases h with h | h
  · exact triple_bind (triple_forEach h) fun _ =>
      (keepsQuiet_of_local (emits_gmrProgress env)).safely
  · exact releases_of_noFree (emits_bind (emits_forEach h) fun _ =>
      Act.noFree_of_local (emits_gmrProgress env)) _

theorem safelyReleases_nbPutV (iovs : List Giov) (handle : Option Nat) :
    SafelyReleases (parmciNbPutV env iovs proc handle) := by
  rcases nbBlocking_or_noguard env with hb | ⟨-, hcfg⟩
  · rw [parmciNbPutV, hb]
    exact safelyReleases_entries (.inl fun iov _ => keepsQuiet_putVEntry handle iov)
  · exact safelyReleases_entries (.inr fun iov _ => noFree_putVEntry proc hcfg _ handle iov)

theorem safelyReleases_nbGetV (iovs : List Giov) (handle : Option Nat) :
    SafelyReleases (parmciNbGetV env iovs proc handle) := by
  rcases nbBlocking_or_noguard env with hb | ⟨-, hcfg⟩
  · rw [parmciNbGetV, hb]
    exact safelyReleases_entries (.inl fun iov _ => keepsQuiet_getVEntry handle iov)
  · exact safelyReleases_entries (.inr fun iov _ => noFree_getVEntry proc hcfg _ handle iov)

/-- The accumulate of vectors does not release a scaled source too early: it
copies shared buffers, does not scale, or takes the conservative way with every
entry. -/
def VectorSettled (env : Env) (proc : Nat) (scale : Scale) (iovs : List Giov) : Prop :=
  env.cfg.shrBufMethod = .copy ∨ scale.accIsScaled = false ∨
    ∀ iov ∈ iovs, ¬ iov.Nop → Conservative env proc iov

theorem safelyReleases_nbAccV {scale : Scale} {iovs : List Giov} (handle : Option Nat)
    (h : VectorSettled env proc scale iovs) :
    SafelyReleases (parmciNbAccV env scale iovs proc handle) := by
  rcases nbBlocking_or_noguard env with hb | ⟨hb, hcfg⟩
  · rw [parmciNbAccV, hb]
    exact safelyReleases_entries (.inl fun iov _ => keepsQuiet_accVEntry scale handle (.inl rfl))
  · rcases h with h | h | h
    · cases h.symm.trans hcfg
    · exact safelyReleases_entries (.inr fun iov _ => noFree_accVEntry proc hcfg h _ handle iov)
    · exact safelyReleases_entries (.inl fun iov hiov =>
        keepsQuiet_accVEntry scale handle (.inr (h iov hiov)))

theorem safelyReleases_viaVector {x : Except String Giov} {vec : Giov → Script Act Unit}
    (h : ∀ iov, x = .ok iov → SafelyReleases (vec iov)) :
    SafelyReleases (do let iov ← lift x; vec iov; gmrProgress env) := by
  refine triple_bind (triple_lift _) fun iov => triple_of_fact fun hiov => ?_
  exact triple_bind (h iov hiov) fun _ =>
    releases_of_noFree (Act.noFree_of_local (emits_gmrProgress env)) _

theorem safelyReleases_nbPutS (src : Int) (srcStride : Nat → Int) (dst : Int)
    (dstStride : Nat → Int) (count : Nat → Nat) (strideLevels : Nat) (handle : Option Nat) :
    SafelyReleases (parmciNbPutS env src srcStride dst dstStride count strideLevels proc
      handle) := by
  unfold parmciNbPutS
  split
  · refine triple_bind (keepsQuiet_of_local (emits_stridedPrepareRead _ _ _ _ _)) fun buf => ?_
    refine triple_bind (triple_lift _) fun dstType => triple_of_fact fun _ => ?_
    refine releases_found fun mreg win g hr => ?_
    exact safelyReleases_temporary hr (emits_gmrRmaTyped hr _ _ _ _ _ _ _ _ _) _
      (emits_gmrProgress env)
  · exact safelyReleases_viaVector fun iov _ => safelyReleases_nbPutV [iov] handle

theorem safelyReleases_nbGetS (src : Int) (srcStride : Nat → Int) (dst : Int)
    (dstStride : Nat → Int) (count : Nat → Nat) (strideLevels : Nat) (handle : Option Nat) :
    SafelyReleases (parmciNbGetS env src srcStride dst dstStride count strideLevels proc
      handle) := by
  unfold parmciNbGetS
  split
  · refine triple_bind (keepsQuiet_of_local (emits_stridedPrepareWrite _ _ _ _ _)) fun buf => ?_
    refine triple_bind (triple_lift _) fun srcType => triple_of_fact fun _ => ?_
    refine releases_found fun mreg win g hr => ?_
    refine triple_bind (Triple.mono (releases_issues (emits_gmrRmaTyped hr _ _ _ _ _ _ _ _ _))
      (fun P hP => hP ▸ allOn_nil win g) fun _ _ h => h) fun _ => ?_
    split
    · refine triple_bind (releases_gmrFlush hr true) fun _ => ?_
      refine triple_bind (keepsQuiet_of_local (emits_armciReadStrided _ _ _ _ _)) fun _ => ?_
      exact triple_bind (keepsQuiet_free _) fun _ =>
        (keepsQuiet_of_local (emits_gmrProgress env)).safely
    · exact releases_of_noFree (Act.noFree_of_local (emits_gmrProgress env)) _
  · exact safelyReleases_viaVector fun iov _ => safelyReleases_nbGetV [iov] handle

theorem safelyReleases_nbAccS {scale : Scale} {src : Int} {srcStride : Nat → Int} {dst : Int}
    {dstStride : Nat → Int} {count : Nat → Nat} {strideLevels : Nat} (handle : Option Nat)
    (h : env.cfg.stridedMethod = .direct ∨ ∀ iov,
      stridedToIov src srcStride dst dstStride count strideLevels = .ok iov →
        VectorSettled env proc scale [iov]) :
    SafelyReleases (parmciNbAccS env scale src srcStride dst dstStride count strideLevels proc
      handle) := by
  unfold parmciNbAccS
  split
  · refine triple_bind (keepsQuiet_of_local (emits_stridedPrepareAcc _ _ _ _ _ _)) fun buf => ?_
    refine triple_bind (triple_lift _) fun dstType => triple_of_fact fun _ => ?_
    refine triple_bind (triple_require _ _) fun _ => triple_of_fact fun _ => ?_
    refine releases_found fun mreg win g hr => ?_
    exact safelyReleases_temporary hr (emits_gmrRmaTyped hr _ _ _ _ _ _ _ _ _) _
      (emits_gmrProgress env)
  · exact safelyReleases_viaVector fun iov hiov =>
      safelyReleases_nbAccV handle (h.resolve_left ‹_› iov hiov)

def NbCall.Settled (env : Env) (proc : Nat) : NbCall → Prop
  | .accV scale iovs => VectorSettled env proc scale iovs
  | .accS scale src ss dst ds count levels =>
    env.cfg.stridedMethod = .direct ∨
      ∀ iov, stridedToIov src ss dst ds count levels = .ok iov → VectorSettled env proc scale [iov]
  | _ => True

theorem NbCall.Settled.safely {call : NbCall} (h : call.Settled env proc) (handle : Option Nat) :
    SafelyReleases (call.run env proc handle) := by
  cases call with
  | put src dst size => exact releases_of_noFree (noFree_nbPut proc src dst size handle) _
  | get src dst size => exact releases_of_noFree (noFree_nbGet proc src dst size handle) _
  | acc scale src dst bytes => exact safelyReleases_nbAcc scale src dst bytes handle
  | putS => exact safelyReleases_nbPutS _ _ _ _ _ _ handle
  | getS => exact safelyReleases_nbGetS _ _ _ _ _ _ handle
  | accS => exact safelyReleases_nbAccS handle h
  | putV iovs => exact safelyReleases_nbPutV iovs handle
  | getV iovs => exact safelyReleases_nbGetV iovs handle
  | accV scale iovs => exact safelyReleases_nbAccV handle h

end

end ArmciMpi
