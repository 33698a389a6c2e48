import ArmciMpi.Transfer.Entries

/-!
# Contiguous calls do what they are asked

`PARMCI_Put`, `PARMCI_Get` and `PARMCI_Acc` move one segment. A put or get of
the caller's own memory with a private local buffer is one copy; otherwise the
segment is sent from where it is, from a copy or from a scaled copy, and flushed.
-/

namespace ArmciMpi

open Lib Script

def single (kind : RmaKind) (base : BaseType) (count : Nat) (fill : List UInt8 → List UInt8)
    (loc rem : Int) : Transfer where
  kind := kind
  base := base
  count := count
  fill := fill
  whole := false
  segs := [(loc, rem)]

section
variable {env : Env} {proc : Nat} {arena : Set Int} {mreg : Gmr} {kind : RmaKind} {b : BaseType}
  {n : Nat} {fill : List UInt8 → List UInt8} {loc buf rem : Int} {handle : Option Nat}
  {h acts : List Act}

theorem sendsAll_segment {src dst : Int} (hloc : localOf kind src dst = loc)
    (hrem : remoteOf kind src dst = rem) (hlook : gmrLookup env rem proc = .ok (some mreg))
    (hholds : mreg.Holds proc rem (n * b.size)) (hfit : kind.Fits b) (hne : loc ≠ 0)
    {a a' h h' : List Act}
    (hseg : gmrSegment env kind mreg src dst n (.predefined b) proc handle h = (.ok (), a))
    (hflush : gmrFlush env mreg proc (kind != .get) h' = (.ok (), a')) :
    SendsAll env kind b n proc [(loc, rem)] (a ++ a') := by
  subst hloc hrem
  obtain ⟨win, g, hreach⟩ := gmrLookup_reaches hlook
  obtain ⟨a₀, hrun, hsends⟩ := sends_gmrSegment hreach hfit hne hholds handle h
  obtain rfl := (Prod.mk.inj (hrun.symm.trans hseg)).2
  rw [gmrFlush_ok hreach.ok hreach.rank] at hflush
  obtain rfl := (Prod.mk.inj hflush).2
  exact ⟨_, win, g, rfl, hreach.rank, by rwa [List.flatMap_singleton], gmrLookup_live hlook hreach⟩

theorem prepared_single (ha : env.Allocs arena) {copyIn : Bool} {size : Nat} (hstart : loc ∉ arena)
    (hbuf : env.Gives h size buf) :
    Prepared env arena copyIn size h [(loc, buf)] (copyActs copyIn size loc buf) := by
  have hne : buf ≠ loc := fun heq => hstart (heq ▸ ha.mem hbuf)
  rw [← List.append_nil (copyActs copyIn size loc buf)]
  exact Prepared.cons_copied ha hbuf hne prepared_nil

theorem staged_inPlace {k : Nat} (huser : block (env.me, loc) (n * k) ⊆ (scratch env.me arena)ᶜ) :
    Staged env.me arena k n id [⟨loc, loc, rem⟩] [] := by
  have hfilter : forthEnds env.me [⟨loc, loc, rem⟩] = [] := by simp [forthEnds]
  refine Placed.staged ⟨?_, ?_, List.pairwise_singleton _ _⟩ onlyNow_nil (by rw [hfilter]; rfl)
  · exact fun s hs => List.mem_singleton.mp hs ▸ huser
  · exact fun s hs => .inl (by rw [List.mem_singleton.mp hs])

theorem single_does {a₁ a a' h h' : List Act} (a₃ : List Act) (hkind : kind ≠ .get)
    (hp : (single kind b n fill loc rem).Proper env proc arena)
    (hr : (single kind b n fill loc rem).InRange env proc mreg)
    (hst : Staged env.me arena b.size n fill [⟨loc, buf, rem⟩] a₁) (hbuf : buf ≠ 0)
    (hguard : env.cfg.shrBufMethod = .copy → buf = loc → gmrLookup env loc env.me = .ok none)
    (hseg : gmrSegment env kind mreg buf rem n (.predefined b) proc handle h = (.ok (), a))
    (hflush : gmrFlush env mreg proc true h' = (.ok (), a'))
    (hmine : ∀ p ∈ allocs a₁, p ∈ arena) (hfree : frees a₁ = [])
    (hrest : actSteps env.me a₃ = []) (halloc : allocs a₃ = []) (htidy : frees a₃ = allocs a₁) :
    (single kind b n fill loc rem).Does env proc arena (a₁ ++ (a ++ (a' ++ a₃))) := by
  have hlocal : localOf kind buf rem = buf ∧ remoteOf kind buf rem = rem := by
    cases kind with
    | put | acc => exact ⟨rfl, rfl⟩
    | get => exact absurd rfl hkind
  have hflag : (kind != .get) = true := bne_iff_ne.mpr hkind
  have hsends := sendsAll_segment hlocal.1 hlocal.2 hr.region (hr.holds _ List.mem_cons_self) hp.fits
    hbuf hseg (hflag ▸ hflush)
  rw [← List.append_assoc a]
  -- with the transfer given, since it cannot be found from the kind and the type
  refine SendsAll.does hkind rfl hst hsends hrest
    (SendsAll.temps (t := single kind b n fill loc rem) hsends (fun hcopy s hs heq => ?_) hmine hfree
      halloc (htidy ▸ .refl _))
  obtain rfl := List.mem_singleton.mp hs
  exact ⟨_, List.mem_singleton_self _, hguard hcopy heq, fun _ => rfl⟩

theorem lookup_of_guard (hguard : guardLookup env loc = .ok none)
    (hcopy : env.cfg.shrBufMethod = .copy) : gmrLookup env loc env.me = .ok none := by
  rwa [guardLookup, if_pos (by rw [hcopy]; decide)] at hguard

-- ------------------------------
-- Put and get
-- ------------------------------

/-- What a caller asks of `PARMCI_Put`. -/
def putTransfer (src dst : Int) (size : Nat) : Transfer := single .put .byte size id src dst

theorem parmciPut_does (ha : env.Allocs arena) {src dst : Int} {size : Nat}
    (hp : (putTransfer src dst size).Proper env proc arena)
    (hr : (putTransfer src dst size).InRange env proc mreg)
    (hrun : parmciPut env src dst size proc h = (.ok (), acts)) :
    (putTransfer src dst size).Does env proc arena acts := by
  have hmem : (src, dst) ∈ (putTransfer src dst size).segs := List.mem_cons_self
  have hnonget : RmaKind.put ≠ .get := by decide
  rw [parmciPut, show gmrLookup env dst proc = .ok (some mreg) from hr.region, lift_ok_bind] at hrun
  obtain ⟨srcMreg, hguard, hrun⟩ := lift_bind_eq_ok.mp hrun
  rw [found, lift_ok_bind] at hrun
  split at hrun
  · rename_i hself
    cases hrun
    exact .copy (src, dst) rfl (fun hacc => by cases hacc) rfl hself.1
  · split at hrun
    · rename_i hnone
      subst hnone
      obtain ⟨_, a, a', hput, hflush, rfl⟩ := bind_eq_ok.mp hrun
      have hdoes := single_does [] hnonget hp hr (staged_inPlace (hp.user _ hmem))
        (hp.nonnull _ hmem) (fun hcopy _ => lookup_of_guard hguard hcopy) hput hflush
        (List.forall_mem_nil _) rfl rfl rfl rfl
      rwa [List.append_nil] at hdoes
    · obtain ⟨srcBuf, a, rest, halloc, hrest, rfl⟩ := bind_eq_ok.mp hrun
      obtain ⟨hgives, rfl⟩ := allocMem_eq_ok halloc
      obtain ⟨_, a₁, rest', hcopy, hrest', rfl⟩ := bind_eq_ok.mp hrest
      cases hcopy
      obtain ⟨_, a₂, rest'', hput, hrest'', rfl⟩ := bind_eq_ok.mp hrest'
      obtain ⟨_, a₃, a₄, hflush, hfree, rfl⟩ := bind_eq_ok.mp hrest''
      cases hfree
      have hprep : Prepared env arena true (size * 1) h [(src, srcBuf)]
          (copyActs true size src srcBuf) := by
        rw [Nat.mul_one]
        exact prepared_single ha (hp.start _ hmem) hgives
      have hst : Staged env.me arena 1 size id [⟨src, srcBuf, dst⟩]
          (copyActs true size src srcBuf) := hprep.staged rfl fun s hs => by
        rw [List.mem_singleton.mp hs]
        exact hp.user _ hmem
      exact single_does [.freeMem _] hnonget hp hr hst hgives.2
        (fun _ heq => absurd (heq ▸ ha.mem hgives) (hp.start _ hmem)) hput hflush
        (List.forall_mem_singleton.mpr (ha.mem hgives)) rfl rfl rfl rfl

/-- What a caller asks of `PARMCI_Get`. -/
def getTransfer (src dst : Int) (size : Nat) : Transfer := single .get .byte size id dst src

theorem single_does_get {a a' h h' : List Act} (a₁ a₃ : List Act)
    (hp : (single .get .byte n id loc rem).Proper env proc arena)
    (hr : (single .get .byte n id loc rem).InRange env proc mreg)
    (hplace : buf = loc ∨ block (env.me, buf) n ⊆ scratch env.me arena) (hbuf : buf ≠ 0)
    (hguard : env.cfg.shrBufMethod = .copy → buf = loc → gmrLookup env loc env.me = .ok none)
    (hstart : actSteps env.me a₁ = [])
    (hseg : gmrGet env mreg rem buf n proc handle h = (.ok (), a))
    (hflush : gmrFlush env mreg proc false h' = (.ok (), a'))
    (hnow : OnlyNow (actSteps env.me a₃))
    (hback : actXfers env.me a₃ = moveAll (fun x _ => x) n (backEnds env.me [⟨loc, buf, rem⟩]))
    (hmine : ∀ p ∈ allocs a₁, p ∈ arena) (hfree : frees a₁ = []) (halloc : allocs a₃ = [])
    (htidy : frees a₃ = allocs a₁) :
    (single .get .byte n id loc rem).Does env proc arena (a₁ ++ (a ++ (a' ++ a₃))) := by
  have hsends : SendsAll env .get .byte n proc [(buf, rem)] (a ++ a') :=
    sendsAll_segment (show localOf .get rem buf = buf from rfl) rfl hr.region
      (hr.holds _ List.mem_cons_self) hp.fits hbuf hseg hflush
  have hasked : ([⟨loc, buf, rem⟩] : List Seg).map Seg.asked =
      (single .get .byte n id loc rem).segs := rfl
  rw [← List.append_assoc a]
  refine SendsAll.does_get rfl rfl hasked (fun s hs => ?_) (List.pairwise_singleton _ _) hstart hsends
    hnow hback (hsends.temps (fun hcopy s hs heq => ?_) hmine hfree halloc (htidy ▸ .refl _))
  · rw [List.mem_singleton.mp hs]
    exact hplace
  · obtain rfl := List.mem_singleton.mp hs
    exact ⟨_, List.mem_singleton_self _, hguard hcopy heq, fun _ => rfl⟩

theorem parmciGet_does (ha : env.Allocs arena) {src dst : Int} {size : Nat}
    (hp : (getTransfer src dst size).Proper env proc arena)
    (hr : (getTransfer src dst size).InRange env proc mreg)
    (hrun : parmciGet env src dst size proc h = (.ok (), acts)) :
    (getTransfer src dst size).Does env proc arena acts := by
  have hmem : (dst, src) ∈ (getTransfer src dst size).segs := List.mem_cons_self
  rw [parmciGet, show gmrLookup env src proc = .ok (some mreg) from hr.region, lift_ok_bind] at hrun
  obtain ⟨dstMreg, hguard, hrun⟩ := lift_bind_eq_ok.mp hrun
  rw [found, lift_ok_bind] at hrun
  split at hrun
  · rename_i hself
    cases hrun
    exact .copy (dst, src) rfl (fun hacc => by cases hacc) rfl hself.1
  · split at hrun
    · rename_i hnone
      subst hnone
      obtain ⟨_, a, a', hget, hflush, rfl⟩ := bind_eq_ok.mp hrun
      have hends : backEnds env.me [⟨dst, dst, src⟩] = [] := by simp [backEnds]
      have hdoes := single_does_get [] [] hp hr (.inl rfl) (hp.nonnull _ hmem)
        (fun hcopy _ => lookup_of_guard hguard hcopy) rfl hget hflush onlyNow_nil
        (by rw [hends]; rfl) (List.forall_mem_nil _) rfl rfl rfl
      rwa [List.append_nil] at hdoes
    · obtain ⟨dstBuf, a, rest, halloc, hrest, rfl⟩ := bind_eq_ok.mp hrun
      obtain ⟨hgives, rfl⟩ := allocMem_eq_ok halloc
      obtain ⟨_, a₂, rest', hget, hrest', rfl⟩ := bind_eq_ok.mp hrest
      obtain ⟨_, a₃, rest'', hflush, hrest'', rfl⟩ := bind_eq_ok.mp hrest'
      cases hrest''
      have hne : dstBuf ≠ dst := fun heq => hp.start _ hmem (heq ▸ ha.mem hgives)
      have hends : backEnds env.me [⟨dst, dstBuf, src⟩] =
          [((env.me, dstBuf), (env.me, dst))] := by simp [backEnds, hne]
      have hnow : OnlyNow (actSteps env.me [.copy dstBuf dst size, .freeMem dstBuf]) :=
        fun step hstep => ⟨_, List.mem_singleton.mp hstep⟩
      exact single_does_get [.allocMem _ size] _ hp hr (.inr (ha.inside hgives)) hgives.2
        (fun _ heq => absurd heq hne) rfl hget hflush hnow (by rw [hends]; rfl)
        (List.forall_mem_singleton.mpr (ha.mem hgives)) rfl rfl rfl

theorem single_bytes (hkind : kind ≠ .acc) (hp : (single kind .byte n id loc rem).Proper env proc arena)
    (hd : (single kind .byte n id loc rem).Does env proc arena acts) (m : Mem) :
    bytesAt (Xfer.applyAll (actXfers env.me acts) m) (kind.ends env.me proc (loc, rem)).2 n =
      bytesAt m (kind.ends env.me proc (loc, rem)).1 n := by
  have hbytes : (single kind .byte n id loc rem).bytes = n := Nat.mul_one n
  have huser := hp.user _ List.mem_cons_self
  have houtside := hp.outside _ List.mem_cons_self
  have hspread : Spread n [kind.ends env.me proc (loc, rem)] := hbytes ▸ hp.spread
  rw [hbytes] at huser houtside
  have htarget : block (kind.ends env.me proc (loc, rem)).2 n ⊆ (scratch env.me arena)ᶜ := by
    cases kind with
    | put | acc => exact houtside
    | get => exact huser
  have hmove : Xfer.applyAll ((single kind .byte n id loc rem).effect env.me proc) m =
      (move (fun x _ => x) n (kind.ends env.me proc (loc, rem)).1
        (kind.ends env.me proc (loc, rem)).2).apply m := by
    rw [← Transfer.applyAll_segment hkind hspread m]
    simp [Transfer.effect, Transfer.ends, single]
  rw [bytesAt_congr ((hd.effect_eqOn hp m).mono htarget), hmove]
  exact move_bytes (fun _ _ hx _ => hx) m m _ _

-- ------------------------------
-- Accumulate
-- ------------------------------

/-- What a caller asks of `PARMCI_Acc`. -/
def accTransfer (scale : Scale) (src dst : Int) (bytes : Nat) : Transfer :=
  single .acc scale.base (bytes / scale.base.size) scale.applied src dst

theorem accTransfer_bytes {scale : Scale} {src dst : Int} {bytes : Nat}
    (hdvd : scale.base.size ∣ bytes) : (accTransfer scale src dst bytes).bytes = bytes :=
  Nat.div_mul_cancel hdvd

theorem accSource_eq_ok (ha : env.Allocs arena) {scale : Scale} {src srcBuf : Int} {bytes : Nat}
    {srcMreg : Option Gmr} {dstMreg : Gmr} (hstart : src ∉ arena)
    (hrun : accSource env scale src bytes srcMreg dstMreg h = (.ok srcBuf, acts)) :
    (scale.accIsScaled = true ∧ env.Gives h bytes srcBuf ∧ acts = [.allocMem srcBuf bytes,
        .scale scale src srcBuf (scale.iterations (bytes / scale.base.size))]) ∨
      scale.accIsScaled = false ∧ (env.Gives h bytes srcBuf ∧
        acts = copyActs true bytes src srcBuf ∨
          srcBuf = src ∧ acts = [] ∧ env.cfg.shrBufMethod ≠ .copy) := by
  obtain ⟨new, a, a', hscaled, hrest, rfl⟩ := bind_eq_ok.mp hrun
  unfold scaledSource at hscaled
  split at hscaled
  · rename_i hscale
    obtain ⟨p, b, rest, halloc, hrest', rfl⟩ := bind_eq_ok.mp hscaled
    obtain ⟨hgives, rfl⟩ := allocMem_eq_ok halloc
    obtain ⟨_, b', b'', hmul, hpure, rfl⟩ := bind_eq_ok.mp hrest'
    cases hpure
    obtain ⟨-, rfl⟩ := bufAccScale_eq_ok hmul
    split at hrest
    · rename_i hsame
      exact absurd (hsame.1 ▸ ha.mem hgives) hstart
    · cases hrest
      exact .inl ⟨hscale, hgives, rfl⟩
  · rename_i hscale
    cases hscaled
    refine .inr ⟨Bool.not_eq_true _ ▸ hscale, ?_⟩
    split at hrest
    · obtain ⟨p, b, rest, halloc, hrest', rfl⟩ := bind_eq_ok.mp hrest
      rw [List.append_nil] at halloc
      obtain ⟨hgives, rfl⟩ := allocMem_eq_ok halloc
      cases hrest'
      exact .inl ⟨hgives, rfl⟩
    · rename_i hkeep
      cases hrest
      exact .inr ⟨rfl, rfl, fun hcopy => hkeep ⟨rfl, .inl hcopy⟩⟩

theorem staged_accSource (ha : env.Allocs arena) {scale : Scale} (hunit : scale.unit = scale.base.size)
    {src srcBuf dst : Int} {srcMreg : Option Gmr} {dstMreg : Gmr} (hstart : src ∉ arena)
    (huser : block (env.me, src) (n * scale.base.size) ⊆ (scratch env.me arena)ᶜ)
    (hrun : accSource env scale src (n * scale.base.size) srcMreg dstMreg h = (.ok srcBuf, acts)) :
    Staged env.me arena scale.base.size n scale.applied [⟨src, srcBuf, dst⟩] acts := by
  have hall : ∀ s ∈ [(⟨src, srcBuf, dst⟩ : Seg)],
      block (env.me, s.user) (n * scale.base.size) ⊆ (scratch env.me arena)ᶜ :=
    fun s hs => List.mem_singleton.mp hs ▸ huser
  rcases accSource_eq_ok ha hstart hrun with
    ⟨hscaled, hbuf, rfl⟩ | ⟨hscaled, ⟨hbuf, rfl⟩ | ⟨rfl, rfl, -⟩⟩
  · rw [Scale.applied, if_pos hscaled]
    refine staged_scaleActs hunit hall (fun s hs => ?_) (List.pairwise_singleton _ _) ?_
    · rw [List.mem_singleton.mp hs]
      exact ha.inside hbuf
    · rw [Nat.mul_div_cancel n scale.base.size_pos, scale.iterations_of_unit hunit]
      rfl
  · rw [Scale.applied, if_neg (by rw [hscaled]; decide)]
    exact (prepared_single ha hstart hbuf).staged rfl hall
  · rw [Scale.applied, if_neg (by rw [hscaled]; decide)]
    exact staged_inPlace huser

theorem parmciAcc_does (ha : env.Allocs arena) {scale : Scale} (hunit : scale.unit = scale.base.size)
    {src dst : Int} {bytes : Nat} (hp : (accTransfer scale src dst bytes).Proper env proc arena)
    (hr : (accTransfer scale src dst bytes).InRange env proc mreg)
    (hrun : parmciAcc env scale src dst bytes proc h = (.ok (), acts)) :
    (accTransfer scale src dst bytes).Does env proc arena acts := by
  have hmem : (src, dst) ∈ (accTransfer scale src dst bytes).segs := List.mem_cons_self
  have hnonget : RmaKind.acc ≠ .get := by decide
  have htype : (Dtype.predefined scale.base).size = scale.base.size := Nat.mul_one _
  obtain ⟨srcMreg, -, hrun⟩ := lift_bind_eq_ok.mp hrun
  rw [show gmrLookup env dst proc = .ok (some mreg) from hr.region, lift_ok_bind, found,
    lift_ok_bind] at hrun
  obtain ⟨srcBuf, a₁, rest, hsource, hrest, rfl⟩ := bind_eq_ok.mp hrun
  obtain ⟨hmod, hrest⟩ := require_bind_eq_ok.mp hrest
  obtain ⟨_, a₂, rest', hacc, hrest', rfl⟩ := bind_eq_ok.mp hrest
  obtain ⟨_, a₃, a₄, hflush, hfree, rfl⟩ := bind_eq_ok.mp hrest'
  rw [Scale.accTypeTranslate, htype] at hmod hacc
  obtain ⟨n, rfl⟩ : ∃ n, bytes = n * scale.base.size :=
    ⟨_, (Nat.div_mul_cancel (Nat.dvd_of_mod_eq_zero hmod)).symm⟩
  have hn : n * scale.base.size / scale.base.size = n := Nat.mul_div_cancel n scale.base.size_pos
  rw [hn] at hacc
  unfold accTransfer at hp hr hmem ⊢
  rw [hn] at hp hr hmem ⊢
  have hst : Staged env.me arena scale.base.size n scale.applied [⟨src, srcBuf, dst⟩] a₁ :=
    staged_accSource ha hunit (hp.start _ hmem) (hp.user _ hmem) hsource
  -- a private source is released at the end
  have hprivate : env.Gives h (n * scale.base.size) srcBuf → allocs a₁ = [srcBuf] →
      frees a₁ = [] → (single .acc scale.base n scale.applied src dst).Does env proc arena
        (a₁ ++ (a₂ ++ (a₃ ++ a₄))) := by
    intro hbuf hallocs hfrees
    have hne : srcBuf ≠ src := fun heq => hp.start _ hmem (heq ▸ ha.mem hbuf)
    rw [if_pos hne] at hfree
    cases hfree
    refine single_does [.freeMem srcBuf] hnonget hp hr hst hbuf.2
      (fun _ heq => absurd heq hne) hacc hflush ?_ hfrees rfl rfl ?_
    · rw [hallocs]
      exact List.forall_mem_singleton.mpr (ha.mem hbuf)
    · rw [hallocs]
      rfl
  rcases accSource_eq_ok ha (hp.start _ hmem) hsource with
    ⟨-, hbuf, rfl⟩ | ⟨-, ⟨hbuf, rfl⟩ | ⟨rfl, rfl, hguard⟩⟩
  · exact hprivate hbuf rfl rfl
  · exact hprivate hbuf rfl rfl
  · rw [if_neg (not_not.mpr rfl)] at hfree
    cases hfree
    exact single_does [] hnonget hp hr hst (hp.nonnull _ hmem)
      (fun hcopy _ => absurd hcopy hguard) hacc hflush (List.forall_mem_nil _) rfl rfl rfl rfl

end

end ArmciMpi
