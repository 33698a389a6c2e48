import ArmciMpi.Transfer.Overlap
import ArmciMpi.Transfer.Staging

/-!
# Dispatching a vector operation

Whichever method the dispatch takes, a blocking vector operation that returns has
sent the elements of its segments and flushed (`sends_iovOpDispatch`). The only
method that can refuse segments that lie in the slice is the one with datatypes,
when distances are not multiples of the type size or too large for an `int`
(`returns_iovOpDispatch`).
-/

namespace ArmciMpi

open Lib Script

theorem lowest_le {l : List Int} {a : Int} (ha : a ∈ l) : lowest l ≤ a := by
  have hfold : ∀ (l : List Int) (base : Int),
      l.foldl (fun base addr => if addr < base then addr else base) base ≤ base ∧
        ∀ a ∈ l, l.foldl (fun base addr => if addr < base then addr else base) base ≤ a := by
    intro l
    induction l with
    | nil => exact fun base => ⟨le_refl base, fun a ha => absurd ha List.not_mem_nil⟩
    | cons b l ih =>
      intro base
      obtain ⟨hbase, hrest⟩ := ih (if b < base then b else base)
      rw [List.foldl_cons]
      refine ⟨hbase.trans (by split <;> omega), fun a ha => ?_⟩
      rcases List.mem_cons.mp ha with rfl | ha
      · exact hbase.trans (by split <;> omega)
      · exact hrest a ha
  exact (hfold l _).2 a ha

section
variable {env : Env} {mreg : Gmr} {proc : Nat} {win : Win} {g : Nat} {kind : RmaKind} {b : BaseType}
  {src dst : List Int} {n : Nat}

theorem mem_localOf {seg : Int × Int} (hseg : seg ∈ src.zip dst) :
    (orient kind seg).1 ∈ localOf kind src dst := by
  obtain ⟨h₁, h₂⟩ := List.of_mem_zip hseg
  cases kind with
  | put | acc => exact h₁
  | get => exact h₂

theorem disps_exact
    (hsegs : ∀ seg ∈ src.zip dst, mreg.Holds proc (orient kind seg).2 (n * b.size))
    {disps : List (Int × Int)}
    (hdisps : ((localOf kind src dst).zip (remoteOf kind src dst)).mapM (fun seg =>
      segmentDisps (lowest (localOf kind src dst)) (mreg.slice proc).base (i32 (mreg.slice proc).size)
        (Dtype.predefined b).size n seg.1 seg.2) = .ok disps) :
    (∀ seg ∈ src.zip dst,
      mreg.Aligned proc b.size (lowest (localOf kind src dst)) (orient kind seg)) ∧
    ((src.zip dst).map (orient kind)).mapM (fun seg =>
      segmentDisps (lowest (localOf kind src dst)) (mreg.slice proc).base (i32 (mreg.slice proc).size)
        b.size n seg.1 seg.2) = .ok (((src.zip dst).map (orient kind)).map
          (segDisps b.size (lowest (localOf kind src dst)) (mreg.slice proc).base)) := by
  have htype : (Dtype.predefined b).size = b.size := Nat.mul_one _
  rw [zip_orient, htype] at hdisps
  have hexact : ∀ seg ∈ src.zip dst, ∃ d, segmentDisps (lowest (localOf kind src dst))
      (mreg.slice proc).base (i32 (mreg.slice proc).size) b.size n (orient kind seg).1
        (orient kind seg).2 = .ok d ∧
      mreg.Aligned proc b.size (lowest (localOf kind src dst)) (orient kind seg) ∧
        d = segDisps b.size (lowest (localOf kind src dst)) (mreg.slice proc).base
          (orient kind seg) := by
    intro seg hseg
    obtain ⟨d, hd⟩ := mapM_eq_ok_mem hdisps _ (List.mem_map_of_mem hseg)
    exact ⟨d, hd, segmentDisps_exact b.size_pos (lowest_le (mem_localOf hseg)) (hsegs seg hseg) hd⟩
  constructor
  · intro seg hseg
    obtain ⟨d, -, halign, -⟩ := hexact seg hseg
    exact halign
  · refine mapM_ok fun seg hseg => ?_
    obtain ⟨s, hs, rfl⟩ := List.mem_map.mp hseg
    obtain ⟨d, hd, -, rfl⟩ := hexact s hs
    exact hd

/-- The actions send the elements of the segments to the process and flush. -/
def SendsAll (env : Env) (kind : RmaKind) (b : BaseType) (n proc : Nat) (segs : List (Int × Int))
    (acts : List Act) : Prop :=
  ∃ a win, ∃ g : Nat, acts = a ++ [flushAct env (kind != .get) win g] ∧
    win.comm.rankOf proc = some g ∧ Sends kind b win g a (segs.flatMap (segPairs b.size n)) ∧
    env.Live win

def SendsOn (env : Env) (kind : RmaKind) (b : BaseType) (n proc : Nat) (mreg : Gmr)
    (segs : List (Int × Int)) (acts : List Act) : Prop :=
  ∃ a win, ∃ g : Nat, Reaches env mreg proc win g ∧
    acts = a ++ [flushAct env (kind != .get) win g] ∧
    Sends kind b win g a (segs.flatMap (segPairs b.size n))

theorem SendsOn.sendsAll {segs : List (Int × Int)} {acts : List Act} {ptr : Int}
    (hlook : gmrLookup env ptr proc = .ok (some mreg))
    (h : SendsOn env kind b n proc mreg segs acts) : SendsAll env kind b n proc segs acts := by
  obtain ⟨a, win, g, hr, hacts, hsends⟩ := h
  exact ⟨a, win, g, hacts, hr.rank, hsends, gmrLookup_live hlook hr⟩

def TakesDatatypes (env : Env) (overlapping sameAlloc : Bool) : Prop :=
  ¬ (overlapping ∨ !sameAlloc ∨ env.cfg.iovMethod = .consrv) ∧ env.cfg.iovMethod ≠ .batched

variable {overlapping sameAlloc : Bool} {handle : Option Nat}

variable (env proc kind b src dst n overlapping sameAlloc handle) in
theorem iovOpDispatch_elems (blocking : Bool) :
    iovOpDispatch env kind src dst (n * b.size) (.predefined b) overlapping sameAlloc proc blocking
      handle =
      if overlapping ∨ !sameAlloc ∨ env.cfg.iovMethod = .consrv then
        iovOpBatched env kind src dst n (.predefined b) proc true true handle
      else match env.cfg.iovMethod with
        | .direct | .auto => iovOpDatatype env kind src dst n (.predefined b) proc blocking handle
        | .batched => iovOpBatched env kind src dst n (.predefined b) proc false blocking handle
        | .consrv => abort "unknown iov method" := by
  have htype : (Dtype.predefined b).size = b.size := Nat.mul_one _
  have hcount : n * b.size / b.size = n := Nat.mul_div_cancel n b.size_pos
  unfold iovOpDispatch
  dsimp only
  rewrite [htype, require_true (Nat.mul_mod_left n b.size), pure_bind_run, hcount]
  rfl

variable (env proc kind b src dst n overlapping sameAlloc handle) in
theorem iovOpDispatch_eq :
    (¬ TakesDatatypes env overlapping sameAlloc ∧
      ∃ consrv, iovOpDispatch env kind src dst (n * b.size) (.predefined b) overlapping sameAlloc
        proc true handle = iovOpBatched env kind src dst n (.predefined b) proc consrv true handle) ∨
      TakesDatatypes env overlapping sameAlloc ∧
      iovOpDispatch env kind src dst (n * b.size) (.predefined b) overlapping sameAlloc proc
        true handle = iovOpDatatype env kind src dst n (.predefined b) proc true handle := by
  rw [iovOpDispatch_elems]
  split
  · rename_i hway
    exact .inl ⟨fun h => h.1 hway, true, rfl⟩
  · rename_i hway
    cases hm : env.cfg.iovMethod with
    | direct | auto => exact .inr ⟨⟨hway, by simp [hm]⟩, rfl⟩
    | consrv => exact absurd (.inr (.inr hm)) hway
    | batched => exact .inl ⟨fun h => h.2 hm, false, rfl⟩

variable (env proc kind b src dst n sameAlloc handle) in
theorem iovOpDispatch_overlapping :
    iovOpDispatch env kind src dst (n * b.size) (.predefined b) true sameAlloc proc true handle =
      iovOpBatched env kind src dst n (.predefined b) proc true true handle := by
  rw [iovOpDispatch_elems]
  exact if_pos (.inl rfl)

theorem sends_iovOpDispatch_batched (hok : SegsOk env kind b src dst n proc mreg) (consrv : Bool)
    (h : List Act) :
    ∃ acts, iovOpBatched env kind src dst n (.predefined b) proc consrv true handle h =
      (.ok (), acts) ∧ SendsOn env kind b n proc mreg ((src.zip dst).map (orient kind)) acts := by
  obtain ⟨win, g, hr⟩ := gmrLookup_reaches hok.region
  obtain ⟨a, ha, hsa⟩ := sends_iovOpBatched hok.region hr hok.fits hok.nonempty hok.takes consrv
    true handle h
  exact ⟨_, ha, a, win, g, hr, rfl, allPairs_eq kind b.size n _ ▸ hsa⟩

theorem sends_iovOpDispatch_disps (hok : SegsOk env kind b src dst n proc mreg)
    {disps : List (Int × Int)}
    (hdisps : ((localOf kind src dst).zip (remoteOf kind src dst)).mapM (fun seg =>
      segmentDisps (lowest (localOf kind src dst)) (mreg.slice proc).base (i32 (mreg.slice proc).size)
        (Dtype.predefined b).size n seg.1 seg.2) = .ok disps) (h : List Act) :
    ∃ acts, iovOpDatatype env kind src dst n (.predefined b) proc true handle h =
      (.ok (), acts) ∧ SendsOn env kind b n proc mreg ((src.zip dst).map (orient kind)) acts := by
  have hholds := fun seg hseg => (hok.takes seg hseg).holds
  obtain ⟨win, g, hr⟩ := gmrLookup_reaches hok.region
  obtain ⟨halign, hdisps⟩ := disps_exact hholds hdisps
  obtain ⟨a, ha, hsa⟩ :=
    sends_datatype hok.region hr hok.nonempty hholds halign hdisps true handle h
  exact ⟨_, ha, a, win, g, hr, rfl, allPairs_eq kind b.size n _ ▸ hsa⟩

/-- A blocking operation sends the segments and flushes, or it aborts before it does
anything. -/
theorem iovOpDispatch_cases (hok : SegsOk env kind b src dst n proc mreg) (h : List Act) :
    (∃ e, iovOpDispatch env kind src dst (n * b.size) (.predefined b) overlapping sameAlloc proc
      true handle h = (.error e, [])) ∨
    ∃ acts, iovOpDispatch env kind src dst (n * b.size) (.predefined b) overlapping sameAlloc proc
      true handle h = (.ok (), acts) ∧
        SendsOn env kind b n proc mreg ((src.zip dst).map (orient kind)) acts := by
  rcases iovOpDispatch_eq env proc kind b src dst n overlapping sameAlloc handle with
    ⟨-, consrv, heq⟩ | ⟨-, heq⟩ <;> rw [heq]
  · exact .inr (sends_iovOpDispatch_batched hok consrv h)
  · cases hdisps : ((localOf kind src dst).zip (remoteOf kind src dst)).mapM (fun seg =>
        segmentDisps (lowest (localOf kind src dst)) (mreg.slice proc).base
          (i32 (mreg.slice proc).size) (Dtype.predefined b).size n seg.1 seg.2) with
    | error e =>
      refine .inl ⟨e, ?_⟩
      rw [iovOpDatatype, hok.region, lift_ok_bind, found, lift_ok_bind]
      dsimp only
      rw [hdisps, lift_error_bind]
      rfl
    | ok disps => exact .inr (sends_iovOpDispatch_disps hok hdisps h)

theorem sendsOn_iovOpDispatch (hok : SegsOk env kind b src dst n proc mreg) {h acts : List Act}
    (hrun : iovOpDispatch env kind src dst (n * b.size) (.predefined b) overlapping sameAlloc proc
      true handle h = (.ok (), acts)) :
    SendsOn env kind b n proc mreg ((src.zip dst).map (orient kind)) acts := by
  rcases iovOpDispatch_cases hok h with ⟨e, herr⟩ | ⟨a, ha, hsends⟩
  · cases hrun.symm.trans herr
  · rwa [(Prod.mk.inj (hrun.symm.trans ha)).2]

theorem sends_iovOpDispatch (hok : SegsOk env kind b src dst n proc mreg) {h acts : List Act}
    (hrun : iovOpDispatch env kind src dst (n * b.size) (.predefined b) overlapping sameAlloc proc
      true handle h = (.ok (), acts)) :
    SendsAll env kind b n proc ((src.zip dst).map (orient kind)) acts :=
  (sendsOn_iovOpDispatch hok hrun).sendsAll hok.region

theorem returns_iovOpDatatype (hok : SegsOk env kind b src dst n proc mreg)
    (hfits : ∀ seg ∈ (localOf kind src dst).zip (remoteOf kind src dst),
      SegmentFits (lowest (localOf kind src dst)) (mreg.slice proc).base
        (i32 (mreg.slice proc).size) b.size n seg.1 seg.2) (h : List Act) :
    (iovOpDatatype env kind src dst n (.predefined b) proc true handle).Returns h := by
  have htype : (Dtype.predefined b).size = b.size := Nat.mul_one _
  have hdisps := mapM_ok fun seg hseg => segmentDisps_eq_ok.mpr ⟨hfits seg hseg, rfl⟩
  rw [← htype] at hdisps
  obtain ⟨a, ha, -⟩ := sends_iovOpDispatch_disps hok hdisps h
  exact returns_of_ok ha

theorem returns_iovOpDispatch (hok : SegsOk env kind b src dst n proc mreg)
    (hsize : TakesDatatypes env overlapping sameAlloc → (mreg.slice proc).size ≤ intMax)
    (halign : TakesDatatypes env overlapping sameAlloc → ∀ seg ∈ src.zip dst,
      mreg.Aligned proc b.size (lowest (localOf kind src dst)) (orient kind seg)) (h : List Act) :
    (iovOpDispatch env kind src dst (n * b.size) (.predefined b) overlapping sameAlloc proc
      true handle).Returns h := by
  rcases iovOpDispatch_eq env proc kind b src dst n overlapping sameAlloc handle with
    ⟨-, consrv, heq⟩ | ⟨hway, heq⟩ <;> rw [heq]
  · obtain ⟨a, ha, -⟩ := sends_iovOpDispatch_batched hok consrv h
    exact returns_of_ok ha
  · refine returns_iovOpDatatype hok (fun seg hseg => ?_) h
    rw [zip_orient] at hseg
    obtain ⟨s, hs, rfl⟩ := List.mem_map.mp hseg
    exact (segmentDisps_eq_ok.mp (segmentDisps_ok (hsize hway) b.size_pos (halign hway s hs)
      (hok.takes s hs).holds)).1

end

-- ------------------------------
-- The checks before
-- ------------------------------

theorem gmrLookup_returns (env : Env) (ptr : Int) {proc : Nat} (hproc : proc < env.world.size) :
    ∃ r, gmrLookup env ptr proc = .ok r := by
  refine ⟨_, lookupIn_eq_find ptr fun r hr => ?_⟩
  obtain ⟨win, hok⟩ := env.regions_ok r hr
  rw [hok.nslices]
  exact hproc

theorem allPrivate_returns (env : Env) {proc : Nat} (hproc : proc < env.world.size)
    (ptrs : List Int) : ∃ b, allPrivate env proc ptrs = .ok b := by
  induction ptrs with
  | nil => exact ⟨true, rfl⟩
  | cons ptr ptrs ih =>
    obtain ⟨r, hr⟩ := gmrLookup_returns env ptr hproc
    rw [allPrivate, hr]
    cases r with
    | none => exact ih
    | some _ => exact ⟨false, rfl⟩

theorem iovCheckSameAllocation_returns (env : Env) (ptrs : List Int) {proc : Nat}
    (hproc : proc < env.world.size) : ∃ b, iovCheckSameAllocation env ptrs proc = .ok b := by
  unfold iovCheckSameAllocation
  split
  · exact ⟨true, rfl⟩
  · cases ptrs with
    | nil => exact ⟨true, rfl⟩
    | cons ptr rest =>
      obtain ⟨r, hr⟩ := gmrLookup_returns env ptr hproc
      dsimp only
      rw [hr]
      cases r with
      | none => exact allPrivate_returns env hproc rest
      | some mreg => exact ⟨_, rfl⟩

end ArmciMpi
