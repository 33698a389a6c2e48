import ArmciMpi.Transfer.Layout
import ArmciMpi.Transfer.VecCall

/-!
# Strided calls do what they are asked

`PARMCI_PutS`, `PARMCI_GetS` and `PARMCI_AccS` move the blocks of two correct
specifications with the same counts. The direct method sends them by one
operation on two datatypes, from the caller's blocks or from blocks packed one
after the other; the other method sends a vector of the blocks.
-/

namespace ArmciMpi

open Lib Script

def stridedTransfer (kind : RmaKind) (base : BaseType) (fill : List UInt8 → List UInt8) (loc : Int)
    (locStride : Nat → Int) (rem : Int) (remStride : Nat → Int) (count : Nat → Nat)
    (levels : Nat) : Transfer where
  kind := kind
  base := base
  count := count 0 / base.size
  fill := fill
  whole := true
  segs := ((stridedBlocks locStride count levels).map (loc + ·)).zip
    ((stridedBlocks remStride count levels).map (rem + ·))

-- ------------------------------
-- Elements of blocks
-- ------------------------------

theorem blockElems_map (k n : Nat) (a : Int) (blocks : List Int) :
    (blockElems k n blocks).map (a + ·) = blockElems k n (blocks.map (a + ·)) := by
  rw [blockElems, blockElems, List.map_flatMap, List.flatMap_map]
  refine List.flatMap_congr fun d _ => ?_
  rw [List.map_map]
  exact List.map_congr_left fun j _ => (Int.add_assoc a d _).symm

theorem zip_blockElems (k n : Nat) {bufs rems : List Int} (h : bufs.length = rems.length) :
    (blockElems k n bufs).zip (blockElems k n rems) = (bufs.zip rems).flatMap (segPairs k n) := by
  induction bufs generalizing rems with
  | nil => rfl
  | cons b bufs ih =>
    obtain ⟨r, rems, rfl⟩ := List.exists_cons_of_length_eq_add_one h.symm
    have hrest := ih (Nat.succ.inj h)
    rw [blockElems, blockElems, List.flatMap_cons, List.flatMap_cons,
      List.zip_append (by simp), List.zip_cons_cons, List.flatMap_cons]
    congr 1
    simp [segPairs, List.zip_map']

theorem blockElems_length (k n : Nat) (blocks : List Int) :
    (blockElems k n blocks).length = blocks.length * n := by
  induction blocks with
  | nil => simp [blockElems]
  | cons d blocks ih =>
    rw [blockElems, List.flatMap_cons, List.length_append, List.length_map, List.length_range,
      List.length_cons, Nat.succ_mul, Nat.add_comm]
    exact congrArg (· + n) ih

theorem stridedBlocks_length (stride : Nat → Int) (count : Nat → Nat) (levels first : Nat) :
    stridedProduct first count levels = (stridedBlocks stride count levels).length * first := by
  induction levels with
  | zero => simp [stridedProduct, stridedBlocks]
  | succ levels ih =>
    rw [stridedProduct] at ih
    rw [stridedProduct, List.range_succ, List.foldl_append, ih, stridedBlocks, List.length_flatMap]
    simp [Nat.mul_comm, Nat.mul_assoc]

theorem contiguous_disps (b : BaseType) (buf : Int) (m n : Nat) :
    (((Dtype.predefined b).contiguous (m * n)).disps).map (buf + ·) =
      blockElems b.size n (contigBufs buf m (n * b.size)) := by
  rw [Dtype.contiguous, elems_predefined, List.map_map, range_mul_flatMap, blockElems, contigBufs,
    List.flatMap_map]
  refine List.flatMap_congr fun i _ => List.map_congr_left fun j _ => ?_
  simp only [Function.comp_apply, Int.natCast_add, Int.natCast_mul, Int.add_mul, Int.mul_assoc]
  omega

section
variable {env : Env} {proc : Nat} {arena : Set Int} {mreg : Gmr} {b : BaseType} {n k : Nat}
  {fill : List UInt8 → List UInt8} {users rems bufs : List Int} {handle : Option Nat}
  {h acts : List Act}

-- ------------------------------
-- Packing
-- ------------------------------

def packActs (size : Nat) (ps : List (Int × Int)) : List Act := ps.map fun p => .copy p.1 p.2 size

theorem packActs_steps (me size : Nat) (ps : List (Int × Int)) :
    actSteps me (packActs size ps) =
      ps.map fun p => .now (move (fun x _ => x) size (me, p.1) (me, p.2)) := by
  rw [actSteps, packActs, List.flatMap_map, List.map_eq_flatMap]
  rfl

theorem packActs_now (me size : Nat) (ps : List (Int × Int)) :
    OnlyNow (actSteps me (packActs size ps)) := by
  intro step hstep
  rw [packActs_steps] at hstep
  obtain ⟨p, -, rfl⟩ := List.mem_map.mp hstep
  exact ⟨_, rfl⟩

theorem packActs_xfers (me size : Nat) (ps : List (Int × Int)) :
    actXfers me (packActs size ps) =
      moveAll (fun x _ => x) size (ps.map fun p => ((me, p.1), (me, p.2))) := by
  rw [actXfers, packActs_steps, stepXfers, List.flatMap_map, moveAll, List.map_map,
    List.map_eq_flatMap]
  rfl

theorem packActs_frees_allocs (size : Nat) (ps : List (Int × Int)) :
    frees (packActs size ps) = [] ∧ allocs (packActs size ps) = [] := by
  constructor <;> refine List.flatMap_eq_nil_iff.mpr fun a ha => ?_ <;>
    (obtain ⟨p, -, rfl⟩ := List.mem_map.mp ha; rfl)

theorem placed_packed (hlen : users.length = rems.length) {buf : Int} {size : Nat}
    (hbuf : block (env.me, buf) (users.length * size) ⊆ scratch env.me arena)
    (huser : ∀ u ∈ users, block (env.me, u) size ⊆ (scratch env.me arena)ᶜ) :
    Placed env.me arena size (mkSegs users (contigBufs buf users.length size) rems) := by
  have hb : (contigBufs buf users.length size).length = users.length := by simp [contigBufs]
  have hapart := contigBufs_apart env.me buf users.length size
  rw [← mkSegs_map_buf hb hlen, List.pairwise_map] at hapart
  exact ⟨fun s hs => huser _ (mem_mkSegs hb hlen hs).1,
    fun s hs => .inr ((contigBufs_subset env.me (mem_mkSegs hb hlen hs).2).trans hbuf),
    hapart.imp fun hd _ _ => hd⟩

theorem slot_ne {buf : Int} {size : Nat} (hpos : 0 < size)
    (hbuf : block (env.me, buf) (users.length * size) ⊆ scratch env.me arena)
    (hstart : ∀ u ∈ users, u ∉ arena) {p : Int × Int}
    (hp : p ∈ users.zip (contigBufs buf users.length size)) : p.2 ≠ p.1 := by
  obtain ⟨hu, hslot⟩ := List.of_mem_zip hp
  exact fun heq => hstart _ hu
    (heq ▸ mem_arena hpos ((contigBufs_subset env.me hslot).trans hbuf))

theorem staged_packed (hlen : users.length = rems.length) {buf : Int} {size : Nat}
    (hbuf : block (env.me, buf) (users.length * size) ⊆ scratch env.me arena) (hsize : size = n * k)
    (hpos : 0 < size) (hstart : ∀ u ∈ users, u ∉ arena)
    (huser : ∀ u ∈ users, block (env.me, u) size ⊆ (scratch env.me arena)ᶜ)
    (hsteps : actSteps env.me acts =
      actSteps env.me (packActs size (users.zip (contigBufs buf users.length size)))) :
    Staged env.me arena k n id (mkSegs users (contigBufs buf users.length size) rems) acts := by
  subst hsize
  have hb : (contigBufs buf users.length (n * k)).length = users.length := by simp [contigBufs]
  refine (placed_packed hlen hbuf huser).staged (hsteps ▸ packActs_now _ _ _) ?_
  have hne : ∀ s ∈ mkSegs users (contigBufs buf users.length (n * k)) rems, s.buf ≠ s.user := by
    intro s hs
    have hmem := List.mem_map_of_mem (f := fun s : Seg => (s.user, s.buf)) hs
    rw [mkSegs_bufs hb hlen] at hmem
    exact slot_ne hpos hbuf hstart hmem
  rw [actXfers, hsteps, ← actXfers, packActs_xfers, forthEnds, ← mkSegs_bufs hb hlen, List.map_map,
    List.filter_eq_self.mpr fun s hs => decide_eq_true (hne s hs)]
  rfl

theorem buf_eq_user (hlen : users.length = rems.length) {s : Seg}
    (hs : s ∈ mkSegs users users rems) : s.buf = s.user := by
  have hmem := List.mem_map_of_mem (f := fun s : Seg => (s.user, s.buf)) hs
  rw [mkSegs_bufs rfl hlen] at hmem
  exact eq_of_mem_zip_self hmem

theorem placed_blocks (hlen : users.length = rems.length) {size : Nat}
    (huser : ∀ u ∈ users, block (env.me, u) size ⊆ (scratch env.me arena)ᶜ) :
    Placed env.me arena size (mkSegs users users rems) :=
  ⟨fun _ hs => huser _ (mem_mkSegs rfl hlen hs).1, fun _ hs => .inl (buf_eq_user hlen hs),
    List.pairwise_of_forall_mem_list fun _ hs _ _ hne => absurd (buf_eq_user hlen hs) hne⟩

theorem staged_blocks (hlen : users.length = rems.length)
    (huser : ∀ u ∈ users, block (env.me, u) (n * k) ⊆ (scratch env.me arena)ᶜ)
    (hsteps : actSteps env.me acts = []) :
    Staged env.me arena k n id (mkSegs users users rems) acts := by
  have hnone : forthEnds env.me (mkSegs users users rems) = [] := by
    rw [forthEnds, List.filter_eq_nil_iff.mpr fun s hs => by simp [buf_eq_user hlen hs]]
    rfl
  refine (placed_blocks hlen huser).staged (hsteps ▸ onlyNow_nil) ?_
  rw [actXfers, hsteps, hnone]
  rfl

-- ------------------------------
-- The local side of the direct method
-- ------------------------------

/-- The local buffer of a direct operation and its type: the caller's blocks, or
slots of a buffer that was allocated. -/
structure LocalSide (env : Env) (arena : Set Int) (b : BaseType) (n : Nat) (user : Int)
    (users : List Int) (buf : Int) (type : Dtype) (bufs : List Int) (acts : List Act) : Prop where
  base : type.base = b
  disps : type.disps.map (buf + ·) = blockElems b.size n bufs
  noFree : frees acts = []
  place : (buf = user ∧ bufs = users ∧ allocs acts = [] ∧
      (env.cfg.shrBufMethod = .copy → gmrLookup env user env.me = .ok none)) ∨
    (buf ∈ arena ∧ bufs = contigBufs buf users.length (n * b.size) ∧ allocs acts = [buf] ∧
      block (env.me, buf) (users.length * (n * b.size)) ⊆ scratch env.me arena)

theorem LocalSide.length {user buf : Int} {type : Dtype}
    (hl : LocalSide env arena b n user users buf type bufs acts) : bufs.length = users.length := by
  rcases hl.place with ⟨-, rfl, -⟩ | ⟨-, rfl, -⟩
  · rfl
  · simp [contigBufs]

theorem LocalSide.size_eq {user rem buf : Int} {type remType : Dtype} {stride : Nat → Int}
    {count : Nat → Nat} {levels : Nat}
    (hl : LocalSide env arena b n user users buf type bufs acts)
    (hlen : users.length = ((stridedBlocks stride count levels).map (rem + ·)).length)
    (hbase : remType.base = b)
    (hdisps : remType.disps = blockElems b.size n (stridedBlocks stride count levels)) :
    type.size = remType.size := by
  have h₁ := congrArg List.length hl.disps
  have h₂ := congrArg List.length hdisps
  rw [List.length_map, blockElems_length, hl.length] at h₁
  rw [blockElems_length] at h₂
  rw [Dtype.size, Dtype.size, Dtype.elemSize, Dtype.elemSize, hl.base, hbase, h₁, h₂, hlen,
    List.length_map]

theorem stridedGuard_eq_ok {buf : Int} {r : Option Gmr}
    (hrun : stridedGuard env buf h = (.ok r, acts)) :
    actSteps env.me acts = [] ∧ frees acts = [] ∧ allocs acts = [] ∧
      (r = none → env.cfg.shrBufMethod = .copy → gmrLookup env buf env.me = .ok none) := by
  obtain ⟨m, hlook, hrun⟩ := lift_bind_eq_ok.mp hrun
  split at hrun
  · cases hrun
    exact ⟨rfl, rfl, rfl, fun hnone _ => hnone ▸ hlook⟩
  · rename_i hcopy
    cases m with
    | none =>
      cases hrun
      exact ⟨rfl, rfl, rfl, fun _ h => absurd h hcopy⟩
    | some mreg =>
      obtain ⟨_, a, a', hsync, hpure, rfl⟩ := bind_eq_ok.mp hrun
      cases hpure
      obtain ⟨win, -, hsync⟩ := lift_bind_eq_ok.mp hsync
      split at hsync <;> cases hsync <;> exact ⟨rfl, rfl, rfl, fun _ h => absurd h hcopy⟩

section
variable {stride : Nat → Int} {count : Nat → Nat} {levels : Nat} {user buf : Int} {type : Dtype}

def userBlocks (user : Int) (stride : Nat → Int) (count : Nat → Nat) (levels : Nat) : List Int :=
  (stridedBlocks stride count levels).map (user + ·)

theorem userBlocks_length (user user' : Int) (stride stride' : Nat → Int) (count : Nat → Nat)
    (levels : Nat) :
    (userBlocks user stride count levels).length = (userBlocks user' stride' count levels).length := by
  have h₁ := stridedBlocks_length stride count levels 1
  have h₂ := stridedBlocks_length stride' count levels 1
  rw [userBlocks, userBlocks, List.length_map, List.length_map]
  omega

theorem localSide_direct (hok : StridedOk stride count levels b.size)
    (htype : stridedToDtype stride count levels (.predefined b) = .ok type)
    (hfree : frees acts = []) (halloc : allocs acts = [])
    (hguard : env.cfg.shrBufMethod = .copy → gmrLookup env user env.me = .ok none) :
    LocalSide env arena b (count 0 / b.size) user (userBlocks user stride count levels) user type
      (userBlocks user stride count levels) acts := by
  obtain ⟨t, ht, hbase, hdisps⟩ := stridedToDtype_eq hok
  rw [htype] at ht
  cases ht
  exact ⟨hbase, by rw [hdisps, blockElems_map, userBlocks], hfree,
    .inl ⟨rfl, rfl, halloc, hguard⟩⟩

theorem localSide_packed (user : Int) {size total nelem : Nat} (hsize : size = n * b.size)
    (htotal : total = users.length * size) (hnelem : nelem = users.length * n) (hmem : buf ∈ arena)
    (hin : block (env.me, buf) total ⊆ scratch env.me arena) (hfree : frees acts = [])
    (halloc : allocs acts = [buf]) :
    LocalSide env arena b n user users buf ((Dtype.predefined b).contiguous nelem)
      (contigBufs buf users.length size) acts := by
  subst hsize htotal hnelem
  exact ⟨rfl, contiguous_disps b buf users.length n, hfree, .inr ⟨hmem, rfl, halloc, hin⟩⟩

theorem armciWriteStrided_run (src dst : Int) (hpos : ∀ i < levels, 1 ≤ count (i + 1))
    (h : List Act) : armciWriteStrided src levels stride count dst h =
      (.ok (), packActs (count 0) ((userBlocks src stride count levels).zip
        (contigBufs dst (userBlocks src stride count levels).length (count 0)))) := by
  obtain ⟨iov, hiov, hsrc, -, hbytes⟩ := stridedToIov_eq src stride src stride hpos
  rw [armciWriteStrided, hiov, lift_ok_bind, hsrc, hbytes]
  refine (forEach_ok (g := fun p : Int × Int => [.copy p.1 p.2 (count 0)]) (fun _ _ _ => rfl) h).trans ?_
  exact congrArg (Prod.mk _) List.map_eq_flatMap.symm

theorem armciReadStrided_run (dst src : Int) (hpos : ∀ i < levels, 1 ≤ count (i + 1))
    (h : List Act) : armciReadStrided dst levels stride count src h =
      (.ok (), packActs (count 0) ((contigBufs src (userBlocks dst stride count levels).length
        (count 0)).zip (userBlocks dst stride count levels))) := by
  obtain ⟨iov, hiov, -, hdst, hbytes⟩ := stridedToIov_eq dst stride dst stride hpos
  rw [armciReadStrided, hiov, lift_ok_bind, hdst, hbytes, packActs, ← List.zip_swap, List.map_map]
  refine (forEach_ok (g := fun p : Int × Int => [.copy p.2 p.1 (count 0)]) (fun _ _ _ => rfl) h).trans ?_
  exact congrArg (Prod.mk _) List.map_eq_flatMap.symm

theorem packed_side (user : Int) (ha : env.Allocs arena) {a : List Act} {size total nelem : Nat}
    (hsize : size = n * b.size) (htotal : total = users.length * size)
    (hnelem : nelem = users.length * n) (hpos : 0 < size) (hsteps : actSteps env.me a = [])
    (hfree : frees a = []) (halloc : allocs a = []) (hstart : ∀ u ∈ users, u ∉ arena)
    (huser : ∀ u ∈ users, block (env.me, u) size ⊆ (scratch env.me arena)ᶜ)
    (hlen : users.length = rems.length) (hbuf : env.Gives h total buf)
    (hacts : acts = a ++ (.allocMem buf total ::
      packActs size (users.zip (contigBufs buf users.length size)))) :
    LocalSide env arena b n user users buf ((Dtype.predefined b).contiguous nelem)
        (contigBufs buf users.length size) acts ∧
      Staged env.me arena b.size n id (mkSegs users (contigBufs buf users.length size) rems)
        acts := by
  have hin : block (env.me, buf) total ⊆ scratch env.me arena := ha.inside hbuf
  obtain ⟨hpf, hpa⟩ := packActs_frees_allocs size (users.zip (contigBufs buf users.length size))
  refine ⟨localSide_packed user hsize htotal hnelem (ha.mem hbuf) hin ?_ ?_,
    staged_packed hlen (htotal ▸ hin) hsize hpos hstart huser ?_⟩
  · rw [hacts, frees_append, hfree]
    exact hpf
  · rw [hacts, allocs_append, halloc]
    exact congrArg (buf :: ·) hpa
  · rw [hacts, actSteps_append, hsteps]
    rfl

theorem copied_side (ha : env.Allocs arena) (hok : StridedOk stride count levels b.size)
    (hn : count 0 = n * b.size) {total nelem : Nat} {msg : String}
    (htotal : total = (userBlocks user stride count levels).length * count 0)
    (hnelem : nelem = (userBlocks user stride count levels).length * n)
    (hstart : ∀ u ∈ userBlocks user stride count levels, u ∉ arena)
    (huser : ∀ u ∈ userBlocks user stride count levels,
      block (env.me, u) (count 0) ⊆ (scratch env.me arena)ᶜ)
    (hlen : (userBlocks user stride count levels).length = rems.length)
    (hrun : (do
      match ← stridedGuard env user with
      | some _ =>
        let srcBuf ← allocMem env total msg
        armciWriteStrided user levels stride count srcBuf
        return (srcBuf, (Dtype.predefined b).contiguous nelem)
      | none =>
        let srcType ← lift (stridedToDtype stride count levels (.predefined b))
        return (user, srcType)) h = (.ok (buf, type), acts)) :
    ∃ bufs, LocalSide env arena b n user (userBlocks user stride count levels) buf type bufs acts ∧
      Staged env.me arena b.size n id (mkSegs (userBlocks user stride count levels) bufs rems)
        acts := by
  obtain ⟨r, a, rest, hguard, hrest, rfl⟩ := bind_eq_ok.mp hrun
  obtain ⟨hsteps, hfree, halloc, hpriv⟩ := stridedGuard_eq_ok hguard
  cases r with
  | some _ =>
    dsimp only at hrest
    obtain ⟨p, a', rest', hnew, hrest', rfl⟩ := bind_eq_ok.mp hrest
    obtain ⟨hgives, rfl⟩ := allocMem_eq_ok hnew
    obtain ⟨_, a'', b', hwrite, hpure, rfl⟩ := bind_eq_ok.mp hrest'
    cases hpure
    obtain ⟨-, rfl⟩ := Prod.mk.inj ((armciWriteStrided_run _ _ hok.level_pos _).symm.trans hwrite)
    exact ⟨_, packed_side user ha hn htotal hnelem (hok.pos 0 (Nat.zero_le _)) hsteps hfree halloc
      hstart huser hlen hgives (by rw [List.append_nil]; rfl)⟩
  | none =>
    obtain ⟨t, htype, hpure⟩ := lift_bind_eq_ok.mp hrest
    cases hpure
    rw [List.append_nil]
    have hdiv : count 0 / b.size = n := by rw [hn, Nat.mul_div_cancel n b.size_pos]
    have hlocal : LocalSide env arena b (count 0 / b.size) user
        (userBlocks user stride count levels) user type (userBlocks user stride count levels) a :=
      localSide_direct hok htype hfree halloc (hpriv rfl)
    rw [hdiv] at hlocal
    exact ⟨_, hlocal, staged_blocks hlen (hn ▸ huser) hsteps⟩

theorem stridedProduct_blocks (user : Int) (stride : Nat → Int) (count : Nat → Nat)
    (levels first : Nat) :
    stridedProduct first count levels = (userBlocks user stride count levels).length * first := by
  rw [stridedBlocks_length stride, userBlocks, List.length_map]

theorem stridedPrepareRead_eq_ok (ha : env.Allocs arena) (hok : StridedOk stride count levels 1)
    (hstart : ∀ u ∈ userBlocks user stride count levels, u ∉ arena)
    (huser : ∀ u ∈ userBlocks user stride count levels,
      block (env.me, u) (count 0) ⊆ (scratch env.me arena)ᶜ)
    (hlen : (userBlocks user stride count levels).length = rems.length)
    (hrun : stridedPrepareRead env user stride count levels h = (.ok (buf, type), acts)) :
    ∃ bufs, LocalSide env arena .byte (count 0) user (userBlocks user stride count levels) buf type
        bufs acts ∧
      Staged env.me arena BaseType.byte.size (count 0) id
        (mkSegs (userBlocks user stride count levels) bufs rems) acts :=
  have hsize := stridedProduct_blocks user stride count levels (count 0)
  copied_side ha hok (Nat.mul_one _).symm hsize hsize hstart huser hlen hrun

theorem scaled_side (ha : env.Allocs arena) {scale : Scale} (hunit : scale.unit = scale.base.size)
    (hscaled : scale.accIsScaled = true) (hok : StridedOk stride count levels scale.base.size)
    (hn : count 0 = n * scale.base.size)
    (huser : ∀ u ∈ userBlocks user stride count levels,
      block (env.me, u) (count 0) ⊆ (scratch env.me arena)ᶜ)
    (hlen : (userBlocks user stride count levels).length = rems.length)
    (hrun : (do
      let srcBuf ← allocMem env (stridedProduct n count levels * scale.base.size) "src_buf != NULL"
      let iov ← lift (stridedToIov user stride user stride count levels)
      forEach (fun (block, slot) => bufAccScale block slot iov.bytes scale)
        (packed srcBuf iov.srcPtrArray iov.bytes)
      return (srcBuf, (Dtype.predefined scale.base).contiguous (stridedProduct n count levels))) h =
        (.ok (buf, type), acts)) :
    ∃ bufs, LocalSide env arena scale.base n user (userBlocks user stride count levels) buf type
        bufs acts ∧
      Staged env.me arena scale.base.size n scale.applied
        (mkSegs (userBlocks user stride count levels) bufs rems) acts := by
  have hdiv : count 0 / scale.base.size = n := by
    rw [hn, Nat.mul_div_cancel n scale.base.size_pos]
  obtain ⟨p, a, rest, hnew, hrest, rfl⟩ := bind_eq_ok.mp hrun
  obtain ⟨hgives, rfl⟩ := allocMem_eq_ok hnew
  obtain ⟨iov, hiov, hsrc, -, hbytes⟩ := stridedToIov_eq user stride user stride hok.level_pos
  rw [hiov, lift_ok_bind, hsrc, hbytes] at hrest
  obtain ⟨_, a', b', hloop, hpure, rfl⟩ := bind_eq_ok.mp hrest
  cases hpure
  obtain rfl := scaleLoop_eq_ok hloop
  rw [stridedProduct_blocks user stride, Nat.mul_assoc] at hgives
  rw [List.append_nil, hdiv, scale.iterations_of_unit hunit, packed,
    stridedProduct_blocks user stride, Nat.mul_assoc, hn, Scale.applied, if_pos hscaled]
  rw [hn] at huser
  have hin := ha.inside hgives
  refine ⟨_, localSide_packed user rfl rfl rfl (ha.mem hgives) hin ?_ ?_,
    staged_contig hunit hlen hin rfl huser rfl⟩
  · exact frees_eq_nil fun x hx p hp => by
      rcases List.mem_cons.mp hx with rfl | hx
      · cases hp
      · obtain ⟨q, -, rfl⟩ := List.mem_map.mp hx
        cases hp
  · refine congrArg (_ :: ·) (List.flatMap_eq_nil_iff.mpr fun x hx => ?_)
    obtain ⟨q, -, rfl⟩ := List.mem_map.mp hx
    rfl

theorem stridedPrepareAcc_eq_ok (ha : env.Allocs arena) {scale : Scale}
    (hunit : scale.unit = scale.base.size) (hok : StridedOk stride count levels scale.base.size)
    (hn : count 0 = n * scale.base.size)
    (hstart : ∀ u ∈ userBlocks user stride count levels, u ∉ arena)
    (huser : ∀ u ∈ userBlocks user stride count levels,
      block (env.me, u) (count 0) ⊆ (scratch env.me arena)ᶜ)
    (hlen : (userBlocks user stride count levels).length = rems.length)
    (hrun : stridedPrepareAcc env scale user stride count levels h = (.ok (buf, type), acts)) :
    ∃ bufs, LocalSide env arena scale.base n user (userBlocks user stride count levels) buf type
        bufs acts ∧
      Staged env.me arena scale.base.size n scale.applied
        (mkSegs (userBlocks user stride count levels) bufs rems) acts := by
  have htype : (Dtype.predefined scale.base).size = scale.base.size := Nat.mul_one _
  have hdiv : count 0 / scale.base.size = n := by
    rw [hn, Nat.mul_div_cancel n scale.base.size_pos]
  have hnelem := stridedProduct_blocks user stride count levels n
  unfold stridedPrepareAcc at hrun
  dsimp only [Scale.accTypeTranslate] at hrun
  rw [htype, hdiv] at hrun
  split at hrun
  · rename_i hscaled
    obtain ⟨_, -, hrun⟩ := lift_bind_eq_ok.mp hrun
    exact scaled_side ha hunit hscaled hok hn huser hlen hrun
  · rename_i hscaled
    rw [Scale.applied, if_neg hscaled]
    exact copied_side ha hok hn (by rw [hnelem, hn, Nat.mul_assoc]) hnelem hstart huser hlen hrun

-- ------------------------------
-- Sending
-- ------------------------------

theorem stridedTransfer_inRange {kind : RmaKind} {loc rem : Int} {locStride remStride : Nat → Int}
    (hpos : ∀ i, i + 1 ≤ levels → 1 ≤ count (i + 1)) :
    (stridedTransfer kind b fill loc locStride rem remStride count levels).InRange env proc mreg ↔
      gmrLookup env rem proc = .ok (some mreg) ∧ ∀ d ∈ stridedBlocks remStride count levels,
        mreg.Holds proc (rem + d) (count 0 / b.size * b.size) := by
  have hlen := userBlocks_length loc rem locStride remStride count levels
  have hsnd : (stridedTransfer kind b fill loc locStride rem remStride count levels).segs.map
      Prod.snd = userBlocks rem remStride count levels := List.map_snd_zip hlen.ge
  obtain ⟨ds, hds⟩ := stridedBlocks_head remStride hpos
  have hhead : (userBlocks rem remStride count levels).headD 0 = rem := by simp [userBlocks, hds]
  constructor
  · rintro ⟨hregion, hholds⟩
    rw [hsnd, hhead] at hregion
    refine ⟨hregion, fun d hd => ?_⟩
    have hmem : rem + d ∈ (stridedTransfer kind b fill loc locStride rem remStride count
        levels).segs.map Prod.snd := hsnd ▸ List.mem_map_of_mem hd
    obtain ⟨s, hs, heq⟩ := List.mem_map.mp hmem
    exact heq ▸ hholds s hs
  · rintro ⟨hregion, hholds⟩
    refine ⟨by rw [hsnd, hhead]; exact hregion, fun s hs => ?_⟩
    have hmem : s.2 ∈ userBlocks rem remStride count levels := (List.of_mem_zip hs).2
    obtain ⟨d, hd, heq⟩ := List.mem_map.mp hmem
    exact heq ▸ hholds d hd

theorem typed_sends {kind : RmaKind} {atomic : Bool} {rem : Int} {remStride : Nat → Int}
    {remType : Dtype} (hl : LocalSide env arena b n user users buf type bufs acts)
    (hok : StridedOk remStride count levels b.size) (hn : count 0 = n * b.size)
    (hlen : users.length = (userBlocks rem remStride count levels).length)
    (htype : stridedToDtype remStride count levels (.predefined b) = .ok remType)
    (hholds : ∀ d ∈ stridedBlocks remStride count levels, mreg.Holds proc (rem + d) (n * b.size))
    {win : Win} {g : Nat} (hreach : Reaches env mreg proc win g) {a h : List Act}
    (hrma : gmrRmaTyped env kind atomic mreg buf 1 type rem 1 remType proc handle h = (.ok (), a)) :
    Sends kind b win g a (((mkSegs users bufs (userBlocks rem remStride count levels)).map
      Seg.sent).flatMap (segPairs b.size n)) := by
  obtain ⟨-, rfl⟩ := gmrRmaTyped_eq_ok hreach hrma
  obtain ⟨t, ht, hbase, hdisps⟩ := stridedToDtype_eq hok
  rw [htype] at ht
  cases ht
  obtain ⟨ds, hds⟩ := hok.head
  have hfirst := hholds 0 (by rw [hds]; exact List.mem_cons_self)
  rw [Int.add_zero] at hfirst
  have hrem := hfirst.ne_zero hreach
  have hb := hl.length
  have hdiv : count 0 / b.size = n := by rw [hn, Nat.mul_div_cancel n b.size_pos]
  have hlocal := hl.disps
  have hremote : remType.disps.map (rem + ·) =
      blockElems b.size n (userBlocks rem remStride count levels) := by
    rw [hdisps, hdiv, blockElems_map, userBlocks]
  have hlengths : (type.elems 1).length = (remType.elems 1).length := by
    have h₁ := congrArg List.length hlocal
    have h₂ := congrArg List.length hremote
    rw [List.length_map, blockElems_length] at h₁ h₂
    rw [elems_one, elems_one, h₁, h₂, hb, hlen]
  have hsends := sends_rmaOf hreach hfirst.pos kind atomic buf rem handle hlengths
  rwa [elems_one, elems_one, hlocal, Gmr.remoteBase, if_neg hrem, hremote,
    zip_blockElems _ _ (hb.trans hlen), ← mkSegs_sent hb hlen, hl.base] at hsends

theorem typed_sendsAll {kind : RmaKind} {atomic : Bool} {rem : Int} {remStride : Nat → Int}
    {remType : Dtype} (hl : LocalSide env arena b n user users buf type bufs acts)
    (hok : StridedOk remStride count levels b.size) (hn : count 0 = n * b.size)
    (hlen : users.length = (userBlocks rem remStride count levels).length)
    (htype : stridedToDtype remStride count levels (.predefined b) = .ok remType)
    (hlook : gmrLookup env rem proc = .ok (some mreg))
    (hholds : ∀ d ∈ stridedBlocks remStride count levels, mreg.Holds proc (rem + d) (n * b.size))
    {a a' h h' : List Act}
    (hrma : gmrRmaTyped env kind atomic mreg buf 1 type rem 1 remType proc handle h = (.ok (), a))
    (hflush : gmrFlush env mreg proc (kind != .get) h' = (.ok (), a')) :
    SendsAll env kind b n proc
      ((mkSegs users bufs (userBlocks rem remStride count levels)).map Seg.sent) (a ++ a') := by
  obtain ⟨win, g, hreach⟩ := gmrLookup_reaches hlook
  rw [gmrFlush_ok hreach.ok hreach.rank] at hflush
  obtain rfl := (Prod.mk.inj hflush).2
  exact ⟨_, win, g, rfl, hreach.rank, typed_sends hl hok hn hlen htype hholds hreach hrma,
    gmrLookup_live hlook hreach⟩

theorem mkSegs_map_user (hb : bufs.length = users.length) (hlen : users.length = rems.length) :
    (mkSegs users bufs rems).map Seg.user = users := by
  have hmap := congrArg (List.map Prod.fst) (mkSegs_bufs hb hlen)
  rwa [List.map_map, List.map_fst_zip hb.ge] at hmap

theorem LocalSide.guard (hl : LocalSide env arena b n user users buf type bufs acts)
    (hpos : 0 < n * b.size) (hstart : ∀ u ∈ users, u ∉ arena) (hfirst : user ∈ users)
    (hlen : users.length = rems.length) (hcopy : env.cfg.shrBufMethod = .copy) :
    ∀ s ∈ mkSegs users bufs rems, s.buf = s.user → ∃ s' ∈ mkSegs users bufs rems,
      gmrLookup env s'.user env.me = .ok none ∧ (true = false → s' = s) := by
  intro s hs heq
  obtain ⟨hu, hbuf⟩ := mem_mkSegs hl.length hlen hs
  rcases hl.place with ⟨-, -, -, hpriv⟩ | ⟨-, rfl, -, hin⟩
  · rw [← mkSegs_map_user hl.length hlen] at hfirst
    obtain ⟨s', hs', huser⟩ := List.mem_map.mp hfirst
    exact ⟨s', hs', huser ▸ hpriv hcopy, fun h => by cases h⟩
  · have hmem := mem_arena hpos ((contigBufs_subset env.me hbuf).trans hin)
    exact absurd (heq ▸ hmem) (hstart _ hu)

theorem LocalSide.freed (hl : LocalSide env arena b n user users buf type bufs acts)
    (hstart : user ∉ arena) :
    frees (if buf ≠ user then [Act.freeMem buf] else []) = allocs acts := by
  rcases hl.place with ⟨rfl, -, halloc, -⟩ | ⟨hmem, -, halloc, -⟩
  · rw [halloc, if_neg (not_not.mpr rfl)]
    rfl
  · have hne : buf ≠ user := fun heq => hstart (heq ▸ hmem)
    rw [halloc, if_pos hne]
    rfl

theorem LocalSide.mine (hl : LocalSide env arena b n user users buf type bufs acts) :
    ∀ p ∈ allocs acts, p ∈ arena := by
  rcases hl.place with ⟨-, -, halloc, -⟩ | ⟨hmem, -, halloc, -⟩
  · rw [halloc]
    exact List.forall_mem_nil _
  · rw [halloc]
    exact List.forall_mem_singleton.mpr hmem

theorem freeIf_run (buf user : Int) (h : List Act) :
    (if buf ≠ user then emit (Act.freeMem buf) else pure ()) h =
      (.ok (), if buf ≠ user then [.freeMem buf] else []) := by
  split <;> rfl

theorem direct_does {kind : RmaKind} {atomic : Bool} {rem : Int} {remStride : Nat → Int}
    {remType : Dtype} (hkind : kind ≠ .get)
    (hp : (stridedTransfer kind b fill user stride rem remStride count levels).Proper env proc arena)
    (hr : (stridedTransfer kind b fill user stride rem remStride count levels).InRange env proc mreg)
    (hok : StridedOk remStride count levels b.size) {a₁ a₂ a₃ a₄ h h' h'' : List Act}
    (hl : LocalSide env arena b (count 0 / b.size) user (userBlocks user stride count levels) buf type
      bufs a₁)
    (hst : Staged env.me arena b.size (count 0 / b.size) fill
      (mkSegs (userBlocks user stride count levels) bufs (userBlocks rem remStride count levels)) a₁)
    (htype : stridedToDtype remStride count levels (.predefined b) = .ok remType)
    (hrma : gmrRmaTyped env kind atomic mreg buf 1 type rem 1 remType proc handle h = (.ok (), a₂))
    (hflush : gmrFlush env mreg proc true h' = (.ok (), a₃))
    (hfree : (if buf ≠ user then emit (Act.freeMem buf) else pure ()) h'' = (.ok (), a₄)) :
    (stridedTransfer kind b fill user stride rem remStride count levels).Does env proc arena
      (a₁ ++ (a₂ ++ (a₃ ++ a₄))) := by
  have hlen := userBlocks_length user rem stride remStride count levels
  have hpos := hok.level_pos
  obtain ⟨hlook, hholds⟩ := (stridedTransfer_inRange hpos).mp hr
  have hn : count 0 = count 0 / b.size * b.size := (Nat.div_mul_cancel hok.count_dvd).symm
  have hflag : (kind != .get) = true := bne_iff_ne.mpr hkind
  have hsends := typed_sendsAll hl hok hn hlen htype hlook hholds hrma (hflag ▸ hflush)
  obtain ⟨ds, hds⟩ := stridedBlocks_head stride hpos
  have hfirst : user ∈ userBlocks user stride count levels := by simp [userBlocks, hds]
  have hstart := fun u hu => (hp.users_outside hlen rfl rfl u hu).1
  rw [freeIf_run] at hfree
  obtain rfl := (Prod.mk.inj hfree).2
  rw [← List.append_assoc a₂]
  refine SendsAll.does hkind (mkSegs_asked hl.length hlen) hst hsends ?_ (SendsAll.temps
    (t := stridedTransfer kind b fill user stride rem remStride count levels) hsends
    (hl.guard (hn ▸ hok.pos 0 (Nat.zero_le _)) hstart hfirst hlen) hl.mine hl.noFree ?_
    (hl.freed (hstart user hfirst) ▸ .refl _))
  · split <;> rfl
  · split <;> rfl

end

-- ------------------------------
-- Calls
-- ------------------------------

variable {src dst : Int} {srcStride dstStride : Nat → Int} {count : Nat → Nat} {levels : Nat}

/-- What a caller asks of `PARMCI_PutS`. -/
def putSTransfer (src : Int) (srcStride : Nat → Int) (dst : Int) (dstStride : Nat → Int)
    (count : Nat → Nat) (levels : Nat) : Transfer :=
  stridedTransfer .put .byte id src srcStride dst dstStride count levels

/-- What a caller asks of `PARMCI_GetS`. -/
def getSTransfer (src : Int) (srcStride : Nat → Int) (dst : Int) (dstStride : Nat → Int)
    (count : Nat → Nat) (levels : Nat) : Transfer :=
  stridedTransfer .get .byte id dst dstStride src srcStride count levels

/-- What a caller asks of `PARMCI_AccS`. -/
def accSTransfer (scale : Scale) (src : Int) (srcStride : Nat → Int) (dst : Int)
    (dstStride : Nat → Int) (count : Nat → Nat) (levels : Nat) : Transfer :=
  stridedTransfer .acc scale.base scale.applied src srcStride dst dstStride count levels

def VecCall.strided (src : Int) (srcStride : Nat → Int) (dst : Int) (dstStride : Nat → Int)
    (count : Nat → Nat) (levels : Nat) : VecCall → Transfer
  | put => putSTransfer src srcStride dst dstStride count levels
  | get => getSTransfer src srcStride dst dstStride count levels
  | acc scale => accSTransfer scale src srcStride dst dstStride count levels

theorem stridedToIov_transfer (src : Int) (srcStride : Nat → Int) (dst : Int)
    (dstStride : Nat → Int) (hpos : ∀ i ≤ levels, 1 ≤ count i) :
    ∃ iov, stridedToIov src srcStride dst dstStride count levels = .ok iov ∧ ¬ iov.Nop ∧
      iov.bytes = count 0 ∧
      ∀ v : VecCall, v.transfer iov true = v.strided src srcStride dst dstStride count levels := by
  obtain ⟨iov, hiov, hsrc, hdst, hbytes⟩ := stridedToIov_eq src srcStride dst dstStride
    fun i hi => hpos (i + 1) hi
  obtain ⟨ds, hds⟩ := stridedBlocks_head srcStride fun i hi => hpos (i + 1) hi
  refine ⟨iov, hiov, ?_, hbytes, fun v => ?_⟩
  · rintro (hlen | hzero)
    · rw [Giov.ptrArrayLen, hsrc, hds] at hlen
      cases hlen
    · have := hpos 0 (Nat.zero_le _)
      omega
  · cases v with
    | put => rw [VecCall.transfer, Giov.transfer, hbytes, hsrc, hdst]; rfl
    | get => rw [VecCall.transfer, Giov.transfer, hbytes, hsrc, hdst]; rfl
    | acc scale => rw [VecCall.transfer, Giov.transfer, hbytes, hsrc, hdst]; rfl

theorem forEach_single {f : Giov → Script Act Unit} {iov : Giov}
    (hrun : forEach f [iov] h = (.ok (), acts)) : f iov h = (.ok (), acts) := by
  obtain ⟨_, a, a', hone, hnil, rfl⟩ := bind_eq_ok.mp hrun
  cases hnil
  rw [List.append_nil]
  exact hone

theorem VecCall.segments_does (v : VecCall) (ha : env.Allocs arena) (hs : v.Sized)
    (hpos : ∀ i ≤ levels, 1 ≤ count i)
    (hp : (v.strided src srcStride dst dstStride count levels).Proper env proc arena)
    (hr : (v.strided src srcStride dst dstStride count levels).InRange env proc mreg)
    (hrun : (do
      let iov ← lift (stridedToIov src srcStride dst dstStride count levels)
      forEach (v.entry env proc) [iov]) h = (.ok (), acts)) :
    (v.strided src srcStride dst dstStride count levels).Does env proc arena acts := by
  obtain ⟨iov, hiov, hnop, -, htrans⟩ := stridedToIov_transfer src srcStride dst dstStride hpos
  rw [hiov, lift_ok_bind] at hrun
  rw [← htrans] at hp hr ⊢
  exact VecCall.entry_does ha hs hp hr hnop (forEach_single hrun)

theorem parmciPutS_does (ha : env.Allocs arena)
    (hp : (putSTransfer src srcStride dst dstStride count levels).Proper env proc arena)
    (hr : (putSTransfer src srcStride dst dstStride count levels).InRange env proc mreg)
    (hsrc : StridedOk srcStride count levels 1) (hdst : StridedOk dstStride count levels 1)
    (hrun : parmciPutS env src srcStride dst dstStride count levels proc h = (.ok (), acts)) :
    (putSTransfer src srcStride dst dstStride count levels).Does env proc arena acts := by
  have hlen := userBlocks_length src dst srcStride dstStride count levels
  have hone : count 0 / BaseType.byte.size = count 0 := Nat.div_one _
  have hbytes : (putSTransfer src srcStride dst dstStride count levels).bytes = count 0 :=
    (Transfer.bytes_byte rfl).trans hone
  unfold parmciPutS at hrun
  split at hrun
  · obtain ⟨⟨buf, type⟩, a₁, rest, hprep, hrest, rfl⟩ := bind_eq_ok.mp hrun
    obtain ⟨remType, htype, hrest⟩ := lift_bind_eq_ok.mp hrest
    rw [((stridedTransfer_inRange hdst.level_pos).mp hr).1, lift_ok_bind, found,
      lift_ok_bind] at hrest
    obtain ⟨_, a₂, rest', hrma, hrest', rfl⟩ := bind_eq_ok.mp hrest
    obtain ⟨_, a₃, a₄, hflush, hfree, rfl⟩ := bind_eq_ok.mp hrest'
    have huser := hp.users_outside hlen rfl hbytes
    obtain ⟨bufs, hl, hst⟩ := stridedPrepareRead_eq_ok ha hsrc (fun u hu => (huser u hu).1)
      (fun u hu => (huser u hu).2) hlen hprep
    rw [← hone] at hl hst
    exact direct_does (by decide) hp hr hdst hl hst htype hrma hflush hfree
  · exact VecCall.segments_does .put ha trivial hsrc.pos hp hr hrun

theorem parmciAccS_does (ha : env.Allocs arena) {scale : Scale}
    (hunit : scale.unit = scale.base.size)
    (hp : (accSTransfer scale src srcStride dst dstStride count levels).Proper env proc arena)
    (hr : (accSTransfer scale src srcStride dst dstStride count levels).InRange env proc mreg)
    (hsrc : StridedOk srcStride count levels scale.base.size)
    (hdst : StridedOk dstStride count levels scale.base.size)
    (hrun : parmciAccS env scale src srcStride dst dstStride count levels proc h = (.ok (), acts)) :
    (accSTransfer scale src srcStride dst dstStride count levels).Does env proc arena acts := by
  have hlen := userBlocks_length src dst srcStride dstStride count levels
  have hn : count 0 = count 0 / scale.base.size * scale.base.size :=
    (Nat.div_mul_cancel hsrc.count_dvd).symm
  unfold parmciAccS at hrun
  split at hrun
  · obtain ⟨⟨buf, type⟩, a₁, rest, hprep, hrest, rfl⟩ := bind_eq_ok.mp hrun
    obtain ⟨remType, htype, hrest⟩ := lift_bind_eq_ok.mp hrest
    obtain ⟨-, hrest⟩ := require_bind_eq_ok.mp hrest
    rw [((stridedTransfer_inRange hdst.level_pos).mp hr).1, lift_ok_bind, found,
      lift_ok_bind] at hrest
    obtain ⟨_, a₂, rest', hrma, hrest', rfl⟩ := bind_eq_ok.mp hrest
    obtain ⟨_, a₃, a₄, hflush, hfree, rfl⟩ := bind_eq_ok.mp hrest'
    have huser := hp.users_outside hlen rfl hn.symm
    obtain ⟨bufs, hl, hst⟩ := stridedPrepareAcc_eq_ok ha hunit hsrc hn (fun u hu => (huser u hu).1)
      (fun u hu => (huser u hu).2) hlen hprep
    exact direct_does (by decide) hp hr hdst hl hst htype hrma hflush hfree
  · exact VecCall.segments_does (.acc scale) ha hunit hsrc.pos hp hr hrun

-- ------------------------------
-- Get
-- ------------------------------

theorem stridedPrepareWrite_eq_ok (ha : env.Allocs arena) {user buf : Int} {stride : Nat → Int}
    {type : Dtype} (hok : StridedOk stride count levels 1)
    (hrun : stridedPrepareWrite env user stride count levels h = (.ok (buf, type), acts)) :
    actSteps env.me acts = [] ∧ ∃ bufs, LocalSide env arena .byte (count 0) user
      (userBlocks user stride count levels) buf type bufs acts := by
  obtain ⟨r, a, rest, hguard, hrest, rfl⟩ := bind_eq_ok.mp hrun
  obtain ⟨hsteps, hfree, halloc, hpriv⟩ := stridedGuard_eq_ok hguard
  cases r with
  | some _ =>
    dsimp only at hrest
    obtain ⟨p, a', rest', hnew, hrest', rfl⟩ := bind_eq_ok.mp hrest
    obtain ⟨hgives, rfl⟩ := allocMem_eq_ok hnew
    cases hrest'
    have hsize : stridedProduct (count 0) count levels =
        (userBlocks user stride count levels).length * count 0 := by
      rw [stridedBlocks_length stride, userBlocks, List.length_map]
    have hone : count 0 = count 0 * BaseType.byte.size := (Nat.mul_one _).symm
    refine ⟨by rw [actSteps_append, hsteps]; rfl, _, localSide_packed user hone hsize hsize
      (ha.mem hgives) (ha.inside hgives) ?_ ?_⟩
    · rw [frees_append, hfree]
      rfl
    · rw [allocs_append, halloc]
      rfl
  | none =>
    obtain ⟨t, htype, hpure⟩ := lift_bind_eq_ok.mp hrest
    cases hpure
    rw [List.append_nil]
    have hlocal : LocalSide env arena .byte (count 0 / BaseType.byte.size) user
        (userBlocks user stride count levels) user type (userBlocks user stride count levels) a :=
      localSide_direct hok htype hfree halloc (hpriv rfl)
    rw [show count 0 / BaseType.byte.size = count 0 from Nat.div_one _] at hlocal
    exact ⟨hsteps, _, hlocal⟩

theorem LocalSide.placed {user buf : Int} {type : Dtype}
    (hl : LocalSide env arena b n user users buf type bufs acts) (hlen : users.length = rems.length)
    (huser : ∀ u ∈ users, block (env.me, u) (n * b.size) ⊆ (scratch env.me arena)ᶜ) :
    Placed env.me arena (n * b.size) (mkSegs users bufs rems) := by
  rcases hl.place with ⟨-, rfl, -⟩ | ⟨-, rfl, -, hin⟩
  · exact placed_blocks hlen huser
  · exact placed_packed hlen hin huser

theorem finishWrite_eq_ok {user buf : Int} {type : Dtype} {stride : Nat → Int} {a₁ a₄ : List Act}
    (hok : StridedOk stride count levels 1)
    (hl : LocalSide env arena .byte (count 0) user (userBlocks user stride count levels) buf type
      bufs a₁)
    (hlen : (userBlocks user stride count levels).length = rems.length)
    (hstart : ∀ u ∈ userBlocks user stride count levels, u ∉ arena)
    (hfirst : user ∈ userBlocks user stride count levels)
    (hrun : (if buf ≠ user then (do
        armciReadStrided user levels stride count buf
        emit (.freeMem buf)) else pure ()) h = (.ok (), a₄)) :
    (OnlyNow (actSteps env.me a₄) ∧ allocs a₄ = [] ∧ frees a₄ = allocs a₁) ∧
      actXfers env.me a₄ = moveAll (fun x _ => x) (count 0)
        (backEnds env.me (mkSegs (userBlocks user stride count levels) bufs rems)) := by
  rw [backEnds_mkSegs _ hl.length hlen]
  rcases hl.place with ⟨rfl, rfl, halloc, -⟩ | ⟨hmem, rfl, halloc, hin⟩
  · rw [if_neg (not_not.mpr rfl)] at hrun
    cases hrun
    rw [copied_self, halloc]
    exact ⟨⟨onlyNow_nil, rfl, rfl⟩, rfl⟩
  · have hne : buf ≠ user := fun heq => hstart user hfirst (heq ▸ hmem)
    rw [if_pos hne] at hrun
    obtain ⟨_, a, a', hread, hfree, rfl⟩ := bind_eq_ok.mp hrun
    cases hfree
    obtain ⟨-, rfl⟩ := Prod.mk.inj ((armciReadStrided_run _ _ hok.level_pos _).symm.trans hread)
    obtain ⟨hpf, hpa⟩ := packActs_frees_allocs (count 0) ((contigBufs buf
      (userBlocks user stride count levels).length (count 0)).zip
        (userBlocks user stride count levels))
    rw [show count 0 * BaseType.byte.size = count 0 from Nat.mul_one _] at hin ⊢
    refine ⟨⟨?_, ?_, ?_⟩, ?_⟩
    · rw [actSteps_append, show actSteps env.me [Act.freeMem buf] = [] from rfl, List.append_nil]
      exact packActs_now _ _ _
    · rw [allocs_append, hpa]
      rfl
    · rw [frees_append, hpf, halloc]
      rfl
    · rw [actXfers, actSteps_append, show actSteps env.me [Act.freeMem buf] = [] from rfl,
        List.append_nil, ← actXfers, packActs_xfers, ← List.zip_swap, List.map_map, copied,
        List.filter_eq_self.mpr fun p hp => decide_eq_true
          (slot_ne (hok.pos 0 (Nat.zero_le _)) hin hstart hp)]
      rfl

theorem parmciGetS_does (ha : env.Allocs arena)
    (hp : (getSTransfer src srcStride dst dstStride count levels).Proper env proc arena)
    (hr : (getSTransfer src srcStride dst dstStride count levels).InRange env proc mreg)
    (hsrc : StridedOk srcStride count levels 1) (hdst : StridedOk dstStride count levels 1)
    (hrun : parmciGetS env src srcStride dst dstStride count levels proc h = (.ok (), acts)) :
    (getSTransfer src srcStride dst dstStride count levels).Does env proc arena acts := by
  have hlen := userBlocks_length dst src dstStride srcStride count levels
  have hcount : (getSTransfer src srcStride dst dstStride count levels).count = count 0 :=
    Nat.div_one _
  have hbytes := (Transfer.bytes_byte rfl).trans hcount
  unfold parmciGetS at hrun
  split at hrun
  · obtain ⟨⟨buf, type⟩, a₁, rest, hprep, hrest, rfl⟩ := bind_eq_ok.mp hrun
    obtain ⟨remType, htype, hrest⟩ := lift_bind_eq_ok.mp hrest
    obtain ⟨hlook, hholds⟩ := (stridedTransfer_inRange hsrc.level_pos).mp hr
    rw [hlook, lift_ok_bind, found, lift_ok_bind] at hrest
    obtain ⟨_, a₂, rest', hrma, hrest', rfl⟩ := bind_eq_ok.mp hrest
    obtain ⟨_, a₃, a₄, hflush, hfin, rfl⟩ := bind_eq_ok.mp hrest'
    have hone : count 0 = count 0 * BaseType.byte.size := (Nat.mul_one _).symm
    have huser := hp.users_outside hlen rfl (hbytes.trans hone)
    obtain ⟨ds, hds⟩ := hdst.head
    have hfirst : dst ∈ userBlocks dst dstStride count levels := by simp [userBlocks, hds]
    have hstart := fun u hu => (huser u hu).1
    obtain ⟨hsteps, bufs, hl⟩ := stridedPrepareWrite_eq_ok ha hdst hprep
    obtain ⟨⟨hnow, halloc, hfree⟩, hback⟩ :=
      finishWrite_eq_ok hdst hl hlen hstart hfirst hfin
    have hholds' : ∀ d ∈ stridedBlocks srcStride count levels,
        mreg.Holds proc (src + d) (count 0 * BaseType.byte.size) := by
      rwa [show count 0 / BaseType.byte.size = count 0 from Nat.div_one _] at hholds
    have hsends := typed_sendsAll hl hsrc hone hlen htype hlook hholds' hrma hflush
    have hasked := mkSegs_asked hl.length hlen
    have hplaced := hl.placed hlen fun u hu => (huser u hu).2
    rw [← hone] at hplaced
    rw [← hcount] at hsends hback
    have hbufs := hplaced.bufs_apart (hbytes ▸ hp.users_apart rfl hasked)
    rw [← List.append_assoc a₂]
    exact SendsAll.does_get rfl rfl hasked (hcount ▸ hplaced.place) (hcount ▸ hbufs) hsteps hsends
      hnow hback (hsends.temps (hl.guard (hone ▸ hdst.pos 0 (Nat.zero_le _)) hstart hfirst hlen)
        hl.mine hl.noFree halloc (hfree ▸ .refl _))
  · exact VecCall.segments_does .get ha trivial hsrc.pos hp hr hrun

end

end ArmciMpi
