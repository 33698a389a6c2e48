import ArmciMpi.Transfer.Entries

/-!
# The entries of a vector

The three vector calls treat an entry alike: two checks of its segments, private
copies of the local ones where they are needed, the dispatch, and the release of
the copies (`VecCall.entry_eq`). Preparing the buffers returns if the bytes are a
multiple of the type size, and releasing them always does; what can still go wrong
is the dispatch.
-/

namespace ArmciMpi

open Lib Script

section
variable {env : Env} {arena : Set Int} {k : Nat} {users bufs rems : List Int}

-- ------------------------------
-- Local buffers
-- ------------------------------

def InTemp (acts : List Act) (buf : Int) : Prop :=
  ∃ p n, .allocMem p n ∈ acts ∧ p ≤ buf ∧ buf < p + (n : Nat)

def Usable (arena : Set Int) (k : Nat) (users : List Int) (acts : List Act) (buf : Int) : Prop :=
  buf ∈ users ∨ buf ∈ arena ∧ InTemp acts buf ∧ ((∀ p ∈ allocs acts, (k : Int) ∣ p) → (k : Int) ∣ buf)

theorem mem_allocs {acts : List Act} {p : Int} {n : Nat} (hmem : .allocMem p n ∈ acts) :
    p ∈ allocs acts := List.mem_flatMap.mpr ⟨_, hmem, List.mem_singleton_self p⟩

theorem returns_allocMem {n : Nat} (hcan : env.CanAlloc n) (msg : String) (h : List Act) :
    (allocMem env n msg).Returns h := returns_of_ok (allocMem_ok (hcan h) msg)

theorem lookup_me (env : Env) (ptr : Int) : ∃ r, gmrLookup env ptr env.me = .ok r :=
  gmrLookup_returns env ptr env.world.rank_lt

theorem returns_preparePrivate (ha : env.Allocs arena) (copyIn : Bool) {size : Nat}
    (hpos : 0 < size) (buf : Int) (h : List Act) : (preparePrivate env copyIn size buf).Returns h := by
  obtain ⟨r, hr⟩ := lookup_me env buf
  rw [preparePrivate, hr, lift_ok_bind]
  cases r with
  | none => exact ⟨buf, rfl⟩
  | some _ =>
    refine returns_bind (returns_allocMem (ha.canAlloc _ hpos) _ h) fun new a _ => ?_
    cases copyIn <;> exact ⟨new, rfl⟩

theorem returns_bufPrepareReadVec (ha : env.Allocs arena) (origBufs : List Int) {size : Nat}
    (hpos : 0 < size) (h : List Act) : (bufPrepareReadVec env origBufs size).Returns h := by
  unfold bufPrepareReadVec
  split
  · exact returns_collect (fun buf _ => returns_preparePrivate ha true hpos buf) h
  · exact ⟨origBufs, rfl⟩

theorem returns_bufPrepareWriteVec (ha : env.Allocs arena) (origBufs : List Int) {size : Nat}
    (hpos : 0 < size) (h : List Act) : (bufPrepareWriteVec env origBufs size).Returns h := by
  unfold bufPrepareWriteVec
  split
  · exact returns_collect (fun buf _ => returns_preparePrivate ha false hpos buf) h
  · exact ⟨origBufs, rfl⟩

theorem collect_private {copyIn : Bool} {size : Nat} {h acts : List Act}
    (hrun : collect (preparePrivate env copyIn size) users h = (.ok bufs, acts)) :
    ∀ p ∈ users.zip bufs, p.2 = p.1 ∨ (∃ h', env.Gives h' size p.2) ∧
      .allocMem p.2 size ∈ acts ∧ ∃ r, gmrLookup env p.1 env.me = .ok (some r) := by
  induction users generalizing h bufs acts with
  | nil => exact fun p hp => absurd hp List.not_mem_nil
  | cons u users ih =>
    obtain ⟨new, a, a', hone, hrest, rfl⟩ := bind_eq_ok.mp hrun
    obtain ⟨news, b, b', hcollect, hpure, rfl⟩ := bind_eq_ok.mp hrest
    cases hpure
    rw [List.zip_cons_cons]
    refine List.forall_mem_cons.mpr ⟨?_, fun p hp => (ih hcollect p hp).imp id fun hnew =>
      ⟨hnew.1, List.mem_append_right a (List.mem_append_left [] hnew.2.1), hnew.2.2⟩⟩
    obtain ⟨r, hlook, hone⟩ := lift_bind_eq_ok.mp hone
    cases r with
    | none =>
      cases hone
      exact .inl rfl
    | some r =>
      obtain ⟨p, c, c', halloc, hnew, rfl⟩ := bind_eq_ok.mp hone
      obtain ⟨hgives, rfl⟩ := allocMem_eq_ok halloc
      cases copyIn <;> cases hnew <;> exact .inr ⟨⟨h, hgives⟩, List.mem_cons_self, r, hlook⟩

theorem zip_usable (ha : env.Allocs arena) {size : Nat} (hpos : 0 < size) {acts : List Act}
    (hb : bufs.length = users.length)
    (hzip : ∀ p ∈ users.zip bufs, p.2 = p.1 ∨ (∃ h', env.Gives h' size p.2) ∧
      .allocMem p.2 size ∈ acts ∧ ∃ r, gmrLookup env p.1 env.me = .ok (some r)) :
    ∀ b ∈ bufs, Usable arena k users acts b := by
  intro b hmem
  have hmap : (users.zip bufs).map Prod.snd = bufs := List.map_snd_zip hb.le
  rw [← hmap] at hmem
  obtain ⟨p, hp, rfl⟩ := List.mem_map.mp hmem
  rcases hzip p hp with heq | ⟨⟨h', hgives⟩, hmem, -⟩
  · exact .inl (heq ▸ (List.of_mem_zip hp).1)
  · exact .inr ⟨ha.mem hgives, ⟨p.2, size, hmem, le_refl _, by omega⟩,
      fun hdvd => hdvd _ (mem_allocs hmem)⟩

theorem readVec_private {size : Nat} {h acts : List Act}
    (hrun : bufPrepareReadVec env users size h = (.ok bufs, acts)) :
    ∀ p ∈ users.zip bufs, p.2 = p.1 ∨ (∃ h', env.Gives h' size p.2) ∧
      .allocMem p.2 size ∈ acts ∧ ∃ r, gmrLookup env p.1 env.me = .ok (some r) := by
  unfold bufPrepareReadVec at hrun
  split at hrun
  · exact collect_private hrun
  · cases hrun
    exact fun p hp => .inl (eq_of_mem_zip_self hp)

theorem writeVec_private {size : Nat} {h acts : List Act}
    (hrun : bufPrepareWriteVec env users size h = (.ok bufs, acts)) :
    ∀ p ∈ users.zip bufs, p.2 = p.1 ∨ (∃ h', env.Gives h' size p.2) ∧
      .allocMem p.2 size ∈ acts ∧ ∃ r, gmrLookup env p.1 env.me = .ok (some r) := by
  unfold bufPrepareWriteVec at hrun
  split at hrun
  · exact collect_private hrun
  · cases hrun
    exact fun p hp => .inl (eq_of_mem_zip_self hp)

theorem returns_bufFinishWriteVec {size : Nat} {acts : List Act}
    (hzip : ∀ p ∈ users.zip bufs, p.2 = p.1 ∨ (∃ h', env.Gives h' size p.2) ∧
      .allocMem p.2 size ∈ acts ∧ ∃ r, gmrLookup env p.1 env.me = .ok (some r)) (h : List Act) :
    (bufFinishWriteVec env users bufs size).Returns h := by
  unfold bufFinishWriteVec
  split
  · refine returns_forEach (fun p hp h' => ?_) h
    dsimp only
    split
    · rename_i hne
      obtain ⟨-, -, r, hr⟩ := (hzip p hp).resolve_left (Ne.symm hne)
      rw [finishWrite, hr, lift_ok_bind, require_true (by simp), pure_bind_run]
      exact ⟨(), rfl⟩
    · exact ⟨(), rfl⟩
  · exact ⟨(), rfl⟩

theorem returns_bufAccScale {scale : Scale} {size : Nat} (hdvd : scale.base.size ∣ size)
    (bufIn bufOut : Int) (h : List Act) : (bufAccScale bufIn bufOut size scale).Returns h := by
  rw [bufAccScale, require_true (Nat.mod_eq_zero_of_dvd hdvd)]
  exact ⟨(), rfl⟩

theorem returns_bufPrepareAccVec (ha : env.Allocs arena) {scale : Scale} {size : Nat}
    (hdvd : scale.base.size ∣ size) (hpos : 0 < size) {origBufs : List Int} (hne : origBufs ≠ [])
    (h : List Act) : (bufPrepareAccVec env origBufs size scale).Returns h := by
  unfold bufPrepareAccVec
  split
  · have hlen := Nat.mul_pos (List.length_pos_iff.mpr hne) hpos
    refine returns_bind (returns_allocMem (ha.canAlloc _ hlen) _ h) fun contig a _ => ?_
    exact returns_bind (returns_forEach (fun p _ h' => returns_bufAccScale hdvd p.1 p.2 h') _)
      fun _ _ _ => ⟨_, rfl⟩
  · exact returns_bind (returns_bufPrepareReadVec ha origBufs hpos h) fun bufs a _ => ⟨_, rfl⟩

theorem accVec_usable (ha : env.Allocs arena) {scale : Scale} {size : Nat} (hpos : 0 < size)
    (hdvd : k ∣ size) (hb : bufs.length = users.length) {contig : Int} {h acts : List Act}
    (hrun : bufPrepareAccVec env users size scale h = (.ok (bufs, contig), acts)) :
    ∀ b ∈ bufs, Usable arena k users acts b := by
  rcases bufPrepareAccVec_eq_ok hrun with ⟨-, hgives, rfl, rfl⟩ | ⟨-, -, hread⟩
  · intro b hmem
    have hin := mem_arena hpos ((contigBufs_subset env.me hmem).trans (ha.inside hgives))
    have hfirst : ∀ {rest : List Act}, .allocMem contig (users.length * size) ∈
        .allocMem contig (users.length * size) :: rest := List.mem_cons_self
    obtain ⟨i, hi, rfl⟩ := List.mem_map.mp hmem
    refine .inr ⟨hin, ⟨_, _, hfirst, ?_, ?_⟩, fun halloc => Int.dvd_add (halloc _ (mem_allocs hfirst))
      (Int.dvd_mul_of_dvd_right (Int.natCast_dvd_natCast.mpr hdvd))⟩
    · exact Int.le_add_of_nonneg_right (Int.mul_nonneg (Int.natCast_nonneg i) (Int.natCast_nonneg _))
    · have hlt : i * size < users.length * size :=
        Nat.mul_lt_mul_of_pos_right (List.mem_range.mp hi) hpos
      exact Int.add_lt_add_left (by exact_mod_cast hlt) contig
  · exact zip_usable ha hpos hb (readVec_private hread)

theorem returns_bufFinishAccVec (origBufs newBufs : List Int) (contig : Int) (h : List Act) :
    (bufFinishAccVec origBufs newBufs contig).Returns h := by
  unfold bufFinishAccVec
  split
  · exact ⟨(), rfl⟩
  · exact returns_of_ok (freeDifferent_run _ h)

end

-- ------------------------------
-- The three calls
-- ------------------------------

inductive VecCall
  | put
  | get
  | acc (scale : Scale)

namespace VecCall

def kind : VecCall → RmaKind
  | put => .put
  | get => .get
  | acc _ => .acc

def base : VecCall → BaseType
  | put | get => .byte
  | acc scale => scale.base

theorem fits (v : VecCall) : v.kind.Fits v.base := by
  cases v with
  | put | get => exact .inr rfl
  | acc scale => exact .inl rfl

def entry (env : Env) (proc : Nat) : VecCall → Giov → Script Act Unit
  | put => putVEntry env proc true none
  | get => getVEntry env proc true none
  | acc scale => accVEntry env scale proc true none

def transfer (iov : Giov) (whole : Bool) : VecCall → Transfer
  | put => iov.transfer .put .byte id whole
  | get => iov.transfer .get .byte id whole
  | acc scale => iov.transfer .acc scale.base scale.applied whole

def Sized : VecCall → Prop
  | put | get => True
  | acc scale => scale.unit = scale.base.size

def locs (v : VecCall) (iov : Giov) : List Int := localOf v.kind iov.srcPtrArray iov.dstPtrArray

def rems (v : VecCall) (iov : Giov) : List Int := remoteOf v.kind iov.srcPtrArray iov.dstPtrArray

theorem length_locs (v : VecCall) (iov : Giov) : (v.locs iov).length = (v.rems iov).length := by
  cases v with
  | put | acc => exact iov.len_eq
  | get => exact iov.len_eq.symm

/-- The buffers in the place of the local segments, and the extra slot. -/
def prepare (env : Env) (iov : Giov) : VecCall → Script Act (List Int × Int)
  | put => do
    let bufs ← bufPrepareReadVec env iov.srcPtrArray iov.bytes
    return (bufs, 0)
  | get => do
    let bufs ← bufPrepareWriteVec env iov.dstPtrArray iov.bytes
    return (bufs, 0)
  | acc scale => bufPrepareAccVec env iov.srcPtrArray iov.bytes scale

def finish (env : Env) (iov : Giov) (bufs : List Int × Int) : VecCall → Script Act Unit
  | put => bufFinishReadVec env iov.srcPtrArray bufs.1
  | get => bufFinishWriteVec env iov.dstPtrArray bufs.1 iov.bytes
  | acc _ => bufFinishAccVec iov.srcPtrArray bufs.1 bufs.2

def dispatch (env : Env) (proc : Nat) (v : VecCall) (iov : Giov) (bufs : List Int)
    (overlapping sameAlloc : Bool) : Script Act Unit :=
  iovOpDispatch env v.kind (localOf v.kind bufs (v.rems iov)) (remoteOf v.kind bufs (v.rems iov))
    iov.bytes (.predefined v.base) overlapping sameAlloc proc true none

section
variable {env : Env} {proc : Nat} {arena : Set Int} {v : VecCall} {iov : Giov} {h acts : List Act}

theorem entry_nop (hnop : iov.Nop) (h : List Act) : v.entry env proc iov h = (.ok (), []) := by
  cases v with
  | put | get | acc => exact congrFun (if_pos hnop) h

theorem entry_does (ha : env.Allocs arena) (hs : v.Sized) {whole : Bool} {mreg : Gmr}
    (hp : (v.transfer iov whole).Proper env proc arena)
    (hr : (v.transfer iov whole).InRange env proc mreg) (hnop : ¬ iov.Nop)
    (hrun : v.entry env proc iov h = (.ok (), acts)) :
    (v.transfer iov whole).Does env proc arena acts := by
  cases v with
  | put => exact putVEntry_does ha hp hr hnop hrun
  | get => exact getVEntry_does ha hp hr hnop hrun
  | acc scale => exact accVEntry_does ha hs hp hr hnop hrun

theorem entry_eq (env : Env) (proc : Nat) (v : VecCall) (hnop : ¬ iov.Nop) :
    v.entry env proc iov = (do
      let overlapping ← lift (iovCheckOverlap env iov.dstPtrArray iov.bytes)
      let sameAlloc ← lift (iovCheckSameAllocation env (v.rems iov) proc)
      let bufs ← v.prepare env iov
      v.dispatch env proc iov bufs.1 overlapping sameAlloc
      v.finish env iov bufs) := by
  cases v with
  | put =>
    simp only [prepare, bind_assoc_run, pure_bind_run]
    exact if_neg hnop
  | get =>
    simp only [prepare, bind_assoc_run, pure_bind_run]
    exact if_neg hnop
  | acc scale => exact if_neg hnop

theorem entry_eq_ok (hnop : ¬ iov.Nop) (hrun : v.entry env proc iov h = (.ok (), acts)) :
    ∃ overlapping sameAlloc bufs a b c,
      iovCheckOverlap env iov.dstPtrArray iov.bytes = .ok overlapping ∧
      iovCheckSameAllocation env (v.rems iov) proc = .ok sameAlloc ∧
      v.prepare env iov h = (.ok bufs, a) ∧
      v.dispatch env proc iov bufs.1 overlapping sameAlloc (h ++ a) = (.ok (), b) ∧
      v.finish env iov bufs (h ++ a ++ b) = (.ok (), c) ∧ acts = a ++ (b ++ c) := by
  rw [entry_eq env proc v hnop] at hrun
  obtain ⟨overlapping, hover, hrest⟩ := lift_bind_eq_ok.mp hrun
  obtain ⟨sameAlloc, hsame, hrest⟩ := lift_bind_eq_ok.mp hrest
  obtain ⟨bufs, a, rest, hprep, hsend, rfl⟩ := bind_eq_ok.mp hrest
  obtain ⟨_, b, c, hdisp, hfin, rfl⟩ := bind_eq_ok.mp hsend
  exact ⟨overlapping, sameAlloc, bufs, a, b, c, hover, hsame, hprep, hdisp, hfin, rfl⟩

theorem returns_prepare (ha : env.Allocs arena) (hnop : ¬ iov.Nop) (hdvd : v.base.size ∣ iov.bytes)
    (h : List Act) : (v.prepare env iov).Returns h := by
  have hpos : 0 < iov.bytes := Nat.pos_of_ne_zero fun h0 => hnop (.inr h0)
  cases v with
  | put => exact returns_bind (returns_bufPrepareReadVec ha _ hpos h) fun bufs a _ => ⟨_, rfl⟩
  | get => exact returns_bind (returns_bufPrepareWriteVec ha _ hpos h) fun bufs a _ => ⟨_, rfl⟩
  | acc scale =>
    have hne : iov.srcPtrArray ≠ [] := fun hnil => hnop (.inl (by simp [Giov.ptrArrayLen, hnil]))
    exact returns_bufPrepareAccVec ha hdvd hpos hne h

theorem prepare_eq_ok (ha : env.Allocs arena) (hnop : ¬ iov.Nop)
    (hstart : ∀ u ∈ v.locs iov, u ∉ arena) {bufs : List Int × Int}
    (hrun : v.prepare env iov h = (.ok bufs, acts)) :
    bufs.1.length = (v.locs iov).length ∧
      (v.base.size ∣ iov.bytes → ∀ b ∈ bufs.1, Usable arena v.base.size (v.locs iov) acts b) ∧
      ∀ h', (v.finish env iov bufs).Returns h' := by
  have hpos : 0 < iov.bytes := Nat.pos_of_ne_zero fun h0 => hnop (.inr h0)
  cases v with
  | put =>
    obtain ⟨_, a, b, hprep, hpure, rfl⟩ := bind_eq_ok.mp hrun
    cases hpure
    obtain ⟨hb, -, hself⟩ := prepared_bufPrepareReadVec ha hstart hprep
    rw [List.append_nil]
    exact ⟨hb, fun _ => zip_usable ha hpos hb (readVec_private hprep),
      fun h' => returns_of_ok (bufFinishReadVec_run _ _ h' hself)⟩
  | get =>
    obtain ⟨_, a, b, hprep, hpure, rfl⟩ := bind_eq_ok.mp hrun
    cases hpure
    obtain ⟨hb, -⟩ := prepared_bufPrepareWriteVec ha hstart hprep
    have hpriv := writeVec_private hprep
    rw [List.append_nil]
    exact ⟨hb, fun _ => zip_usable ha hpos hb hpriv, returns_bufFinishWriteVec hpriv⟩
  | acc scale =>
    have hb : bufs.1.length = iov.srcPtrArray.length := by
      rcases bufPrepareAccVec_eq_ok hrun with ⟨-, -, hbufs, -⟩ | ⟨-, -, hread⟩
      · rw [hbufs, contigBufs, List.length_map, List.length_range]
      · exact (prepared_bufPrepareReadVec ha hstart hread).1
    exact ⟨hb, fun hdvd => accVec_usable ha hpos hdvd hb hrun, returns_bufFinishAccVec _ _ _⟩

theorem returns_entry (ha : env.Allocs arena) (hnop : ¬ iov.Nop)
    (hstart : ∀ u ∈ v.locs iov, u ∉ arena) (hdvd : v.base.size ∣ iov.bytes)
    {overlapping sameAlloc : Bool}
    (hover : iovCheckOverlap env iov.dstPtrArray iov.bytes = .ok overlapping)
    (hsame : iovCheckSameAllocation env (v.rems iov) proc = .ok sameAlloc)
    (hdisp : ∀ bufs a, v.prepare env iov h = (.ok bufs, a) → a ⊆ (v.entry env proc iov h).2 →
      (v.dispatch env proc iov bufs.1 overlapping sameAlloc).Returns (h ++ a)) :
    (v.entry env proc iov).Returns h := by
  rw [entry_eq env proc v hnop, hover, lift_ok_bind, hsame, lift_ok_bind] at hdisp ⊢
  refine returns_bind (returns_prepare ha hnop hdvd h) fun bufs a hprep => ?_
  exact returns_bind (hdisp bufs a hprep (bind_acts_left hprep))
    fun _ _ _ => (prepare_eq_ok ha hnop hstart hprep).2.2 _

end

end VecCall

end ArmciMpi
