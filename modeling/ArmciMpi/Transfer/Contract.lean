import ArmciMpi.Transfer.Methods

/-!
# What a blocking call does to memory

A put or accumulate prepares its local segments, sends their elements and
flushes (`SendCall`); a get sends, flushes and brings its segments where they
belong (`GetCall`). Temporary buffers are in scratch memory of the caller, which
no one else uses. Outside it the calls do what their elements say: the plain
reading of the actions agrees with the moves between the caller's addresses and
the remote ones (`SendCall.effect`, `GetCall.effect`), nothing races
(`SendCall.free`, `GetCall.free`), and after a full flush nothing is left in
flight.
-/

namespace ArmciMpi

open Lib Script

/-- Where `MPI_Alloc_mem` puts the temporary buffers of a process. -/
def scratch (me : Nat) (arena : Set Int) : Set Loc := {l | l.1 = me ∧ l.2 ∈ arena}

/-- A segment: the caller's address, the address the operation uses, which is that
or a temporary buffer, and the remote address. -/
structure Seg where
  user : Int
  buf : Int
  rem : Int

namespace Seg

def elems (k n : Nat) (s : Seg) : List Seg :=
  (List.range n).map fun (j : Nat) => ⟨s.user + j * k, s.buf + j * k, s.rem + j * k⟩

def sent (s : Seg) : Int × Int := (s.buf, s.rem)

def asked (s : Seg) : Int × Int := (s.user, s.rem)

theorem elems_sent (k n : Nat) (segs : List Seg) :
    (segs.flatMap (elems k n)).map sent = (segs.map sent).flatMap (segPairs k n) := by
  rw [List.map_flatMap, List.flatMap_map]
  refine List.flatMap_congr fun s _ => ?_
  simp [elems, segPairs, sent]

theorem elems_asked (k n : Nat) (segs : List Seg) :
    (segs.flatMap (elems k n)).map asked = (segs.map asked).flatMap (segPairs k n) := by
  rw [List.map_flatMap, List.flatMap_map]
  refine List.flatMap_congr fun s _ => ?_
  simp [elems, segPairs, asked]

end Seg

-- ------------------------------
-- Steps of the process itself
-- ------------------------------

def OnlyNow (s : List (Step Loc UInt8 Rma)) : Prop := ∀ step ∈ s, ∃ x, step = .now x

theorem OnlyNow.raceFree {s : List (Step Loc UInt8 Rma)} (h : OnlyNow s) : RaceFree ∅ s := by
  induction s with
  | nil => trivial
  | cons step s ih =>
    obtain ⟨x, rfl⟩ := h step List.mem_cons_self
    exact ⟨fun p hp => hp.elim, ih fun t ht => h t (List.mem_cons_of_mem _ ht)⟩

theorem OnlyNow.after {s : List (Step Loc UInt8 Rma)} (h : OnlyNow s)
    (S : Set (Flight Loc UInt8 Rma)) : after S s = S := by
  induction s with
  | nil => rfl
  | cons step s ih =>
    obtain ⟨x, rfl⟩ := h step List.mem_cons_self
    exact ih fun t ht => h t (List.mem_cons_of_mem _ ht)

theorem onlyNow_nil : OnlyNow [] := fun _ h => absurd h List.not_mem_nil

-- ------------------------------
-- What a flush leaves
-- ------------------------------

section
variable {kind : RmaKind} {b : BaseType} {win : Win} {g : Nat} {acts : List Act}
  {pairs : List (Int × Int)} {me proc : Nat}

theorem Sends.after (h : Sends kind b win g acts pairs) {q : Flight Loc UInt8 Rma}
    (hq : q ∈ Lib.after ∅ (actSteps me acts)) :
    q.key.On win g ∧ q.fetch = decide (kind = .get) ∧
      ∃ x ∈ actXfers me acts, q.x = x ∧ q.held = false ∨ ∃ a, q.x = x.hold a := by
  rcases after_subset hq with ⟨p, hp, -⟩ | ⟨key, fetch, xs, hstep, p, hp, hof⟩
  · exact hp.elim
  · obtain ⟨a, ha, hstep⟩ := List.mem_flatMap.mp hstep
    cases h.each a ha with
    | rma op hkind hbase hwin htarget =>
      cases List.mem_singleton.mp hstep
      obtain ⟨x, hx, rfl⟩ := List.mem_map.mp hp
      have hmem : x ∈ actXfers me acts :=
        List.mem_flatMap.mpr ⟨_, List.mem_flatMap.mpr ⟨_, ha, hstep⟩, hx⟩
      have hon : key.On win g := ⟨by rw [hwin], htarget⟩
      obtain rfl | ⟨a, rfl⟩ := hof
      · exact ⟨hon, by simp [hkind], x, hmem, .inl ⟨rfl, rfl⟩⟩
      · exact ⟨hon, by simp [Flight.hold, hkind], x, hmem, .inr ⟨a, rfl⟩⟩
    | flush => cases List.mem_singleton.mp hstep
    | flushLocal => cases List.mem_singleton.mp hstep
    | setTarget => cases hstep

theorem Sends.after_flush (h : Sends kind b win g acts pairs) :
    Lib.after ∅ (actSteps me (acts ++ [.flush win g])) = ∅ := by
  rw [actSteps_append, after_append]
  refine Set.eq_empty_iff_forall_notMem.mpr fun q hq => ?_
  obtain ⟨⟨p, hp, hof⟩, hpass⟩ := hq
  have hkey : q.key = p.key := by
    obtain rfl | ⟨a, rfl⟩ := hof <;> rfl
  exact hpass.1 (hkey ▸ (h.after hp).1)

theorem Sends.after_flushLocal (h : Sends kind b win g acts pairs) {q : Flight Loc UInt8 Rma}
    (hq : q ∈ Lib.after ∅ (actSteps me (acts ++ [.flushLocal win g]))) :
    q.held = true ∧ ∃ x ∈ actXfers me acts, ∃ a, q.x = x.hold a := by
  rw [actSteps_append, after_append] at hq
  obtain ⟨⟨p, hp, hof⟩, hpass⟩ := hq
  obtain ⟨hon, -, x, hx, hcase⟩ := h.after hp
  have hkey : q.key = p.key := by
    obtain rfl | ⟨a, rfl⟩ := hof <;> rfl
  have hheld := (hpass.2 ⟨rfl, hkey ▸ hon⟩).2
  refine ⟨hheld, x, hx, ?_⟩
  obtain rfl | ⟨a, rfl⟩ := hof
  · rcases hcase with ⟨-, hnot⟩ | hcase
    · cases hnot.symm.trans hheld
    · exact hcase
  · rcases hcase with ⟨rfl, -⟩ | ⟨a', ha'⟩
    · exact ⟨a, rfl⟩
    · exact ⟨a', by simp only [Flight.hold, ha']; rfl⟩

end

-- ------------------------------
-- Preparing the local segments
-- ------------------------------

def userBytes (me size : Nat) (segs : List Seg) : Set Loc :=
  {l | ∃ s ∈ segs, l ∈ block (me, s.user) size}

/-- The actions prepare the segments of `n` elements of `k` bytes: each is where the
caller has it or in scratch memory, with `fill` applied to its elements. -/
structure Staged (me : Nat) (arena : Set Int) (k n : Nat) (fill : List UInt8 → List UInt8)
    (segs : List Seg) (acts : List Act) : Prop where
  now : OnlyNow (actSteps me acts)
  foot : ∀ x ∈ actXfers me acts, x.dst ⊆ scratch me arena ∧ x.src ⊆ userBytes me (n * k) segs
  place : ∀ s ∈ segs, s.buf = s.user ∨ block (me, s.buf) (n * k) ⊆ scratch me arena
  elems : ∀ m, ∀ s ∈ segs, ∀ j < n,
    bytesAt (Xfer.applyAll (actXfers me acts) m) (me, s.buf + (j : Nat) * k) k =
      fill (bytesAt m (me, s.user + (j : Nat) * k) k)

theorem Staged.frame {me : Nat} {arena : Set Int} {k n : Nat} {fill : List UInt8 → List UInt8}
    {segs : List Seg} {acts : List Act} (h : Staged me arena k n fill segs acts) (m : Mem) :
    Set.EqOn (Xfer.applyAll (actXfers me acts) m) m (scratch me arena)ᶜ :=
  Xfer.applyAll_eqOn (fun x hx => disjoint_compl_right.mono_left (h.foot x hx).1) m

-- ------------------------------
-- Puts and accumulates
-- ------------------------------

inductive SendCall (env : Env) (kind : RmaKind) (b : BaseType) (n proc : Nat) (arena : Set Int)
    (fill : List UInt8 → List UInt8) (segs : List Seg) : List Act → Prop
  | mk (a₁ a₂ a₃ win g) (staged : Staged env.me arena b.size n fill segs a₁)
      (sends : Sends kind b win g a₂ ((segs.map Seg.sent).flatMap (segPairs b.size n)))
      (rank : win.comm.rankOf proc = some g) (rest : actSteps env.me a₃ = []) (live : env.Live win) :
      SendCall env kind b n proc arena fill segs (a₁ ++ (a₂ ++ [flushAct env true win g]) ++ a₃)

/-- What the caller asks for does not overlap, and the remote side is not scratch
memory. -/
structure SendOk (env : Env) (kind : RmaKind) (b : BaseType) (n proc : Nat) (arena : Set Int)
    (fill : List UInt8 → List UInt8) (segs : List Seg) : Prop where
  kind_ne : kind ≠ .get
  spread : Spread (n * b.size) ((segs.map Seg.asked).map (kind.ends env.me proc))
  outside : ∀ s ∈ segs, block (proc, s.rem) (n * b.size) ⊆ (scratch env.me arena)ᶜ
  fill_length : ∀ x, x.length = b.size → (fill x).length = b.size

def sendEffect (env : Env) (kind : RmaKind) (b : BaseType) (n proc : Nat)
    (fill : List UInt8 → List UInt8) (segs : List Seg) : List (Xfer Loc UInt8) :=
  moveAll (fun x d => kind.fn b (fill x) d) b.size
    (((segs.map Seg.asked).flatMap (segPairs b.size n)).map (kind.ends env.me proc))

theorem RmaKind.ends_send {kind : RmaKind} (h : kind ≠ .get) (me proc : Nat) (p : Int × Int) :
    kind.ends me proc p = ((me, p.1), (proc, p.2)) := by
  cases kind with
  | put | acc => rfl
  | get => exact absurd rfl h

section
variable {env : Env} {kind : RmaKind} {b : BaseType} {n proc : Nat} {arena : Set Int}
  {fill : List UInt8 → List UInt8} {segs : List Seg} {acts : List Act}

theorem SendOk.spread_sent (h : SendOk env kind b n proc arena fill segs)
    (hplace : ∀ s ∈ segs, s.buf = s.user ∨ block (env.me, s.buf) (n * b.size) ⊆ scratch env.me arena) :
    Spread (n * b.size) ((segs.map Seg.sent).map (kind.ends env.me proc)) := by
  obtain ⟨htargets, hsources⟩ := h.spread
  simp only [List.map_map, List.pairwise_map, List.mem_map, Function.comp_apply, Seg.asked,
    RmaKind.ends_send h.kind_ne, forall_exists_index, and_imp, forall_apply_eq_imp_iff₂]
    at htargets hsources
  constructor
  · simpa only [List.map_map, List.pairwise_map, Function.comp_apply, Seg.sent,
      RmaKind.ends_send h.kind_ne] using htargets
  · simp only [List.map_map, List.mem_map, Function.comp_apply, Seg.sent,
      RmaKind.ends_send h.kind_ne, forall_exists_index, and_imp, forall_apply_eq_imp_iff₂]
    intro s hs s' hs'
    rcases hplace s hs with heq | hin
    · rw [heq]
      exact hsources s hs s' hs'
    · exact disjoint_compl_right.mono hin (h.outside s' hs')

theorem SendCall.free (h : SendCall env kind b n proc arena fill segs acts)
    (hok : SendOk env kind b n proc arena fill segs) : RaceFree ∅ (actSteps env.me acts) := by
  obtain ⟨a₁, a₂, a₃, win, g, hst, hs, hrank, hrest⟩ := h
  have hsend := (hs.append (sends_flush env true)).xfers hrank env.me
  rw [actSteps_append, hrest, List.append_nil, actSteps_append, raceFree_append, hst.now.after]
  refine ⟨hst.now.raceFree, raceFree_of_indep (fun p hp => hp.elim) ?_⟩
  rw [← actXfers, hsend, List.append_nil]
  exact (hok.spread_sent hst.place).elems.indep _

theorem SendCall.xfers (h : SendCall env kind b n proc arena fill segs acts) :
    ∃ a₁, Staged env.me arena b.size n fill segs a₁ ∧
      actXfers env.me acts = actXfers env.me a₁ ++ moveAll (kind.fn b) b.size
        (((segs.map Seg.sent).flatMap (segPairs b.size n)).map (kind.ends env.me proc)) := by
  obtain ⟨a₁, a₂, a₃, win, g, hst, hs, hrank, hrest⟩ := h
  have hsend := (hs.append (sends_flush env true)).xfers hrank env.me
  have hnil : actXfers env.me a₃ = [] := by rw [actXfers, hrest]; rfl
  refine ⟨a₁, hst, ?_⟩
  rw [actXfers_append, actXfers_append, hsend, hnil, List.append_nil, List.append_nil]

theorem SendCall.effect (h : SendCall env kind b n proc arena fill segs acts)
    (hok : SendOk env kind b n proc arena fill segs) (m : Mem) :
    Set.EqOn (Xfer.applyAll (actXfers env.me acts) m)
      (Xfer.applyAll (sendEffect env kind b n proc fill segs) m) (scratch env.me arena)ᶜ := by
  obtain ⟨a₁, hst, hx⟩ := h.xfers
  have hsent := (hok.spread_sent hst.place).elems
  have hasked := hok.spread.elems
  rw [hx, Xfer.applyAll_append, sendEffect]
  simp only [← Seg.elems_sent, ← Seg.elems_asked, List.map_map, Function.comp_def, Seg.sent,
    Seg.asked, RmaKind.ends_send hok.kind_ne] at hsent hasked ⊢
  refine moveAll_prepared (fun x y hx hy => kind.keepsLength_fn b _ _ (hok.fill_length x hx) hy)
    (kind.keepsLength_fn b) hasked hsent (hst.frame m) (fun x hx => ?_) fun x hx d => ?_
  · obtain ⟨s, hs, hx⟩ := List.mem_flatMap.mp hx
    obtain ⟨j, hj, rfl⟩ := List.mem_map.mp hx
    exact (shift_subset (l := (proc, s.rem)) (List.mem_range.mp hj) b.size).trans
      (hok.outside s hs)
  · obtain ⟨s, hs, hx⟩ := List.mem_flatMap.mp hx
    obtain ⟨j, hj, rfl⟩ := List.mem_map.mp hx
    rw [← hst.elems m s hs j (List.mem_range.mp hj)]

theorem SendCall.after_empty (h : SendCall env kind b n proc arena fill segs acts)
    (hflush : env.cfg.endToEndFlush = true) : after ∅ (actSteps env.me acts) = ∅ := by
  obtain ⟨a₁, a₂, a₃, win, g, hst, hs, hrank, hrest⟩ := h
  have hact : flushAct env true win g = .flush win g := by simp [flushAct, hflush]
  rw [actSteps_append, hrest, List.append_nil, actSteps_append, after_append, hst.now.after, hact,
    hs.after_flush]

theorem SendCall.after_on (h : SendCall env kind b n proc arena fill segs acts)
    {q : Flight Loc UInt8 Rma} (hq : q ∈ after ∅ (actSteps env.me acts)) :
    ∃ win, ∃ g : Nat, q.key.On win g ∧ win.comm.rankOf proc = some g ∧ env.Live win := by
  obtain ⟨a₁, a₂, a₃, win, g, hst, hs, hrank, hrest, hlive⟩ := h
  rw [actSteps_append, hrest, List.append_nil, actSteps_append, after_append, hst.now.after] at hq
  have hsends := hs.append (sends_flush env true)
  exact ⟨win, g, (hsends.after hq).1, hrank, hlive⟩

/-- Otherwise what is left in flight is moves of the call whose sources have been
read. -/
theorem SendCall.after_held (h : SendCall env kind b n proc arena fill segs acts)
    {q : Flight Loc UInt8 Rma} (hq : q ∈ after ∅ (actSteps env.me acts)) :
    q.held = true ∧ ∃ e ∈ ((segs.map Seg.sent).flatMap (segPairs b.size n)).map
      (kind.ends env.me proc), ∃ a, q.x = (move (kind.fn b) b.size e.1 e.2).hold a := by
  obtain ⟨a₁, a₂, a₃, win, g, hst, hs, hrank, hrest⟩ := h
  rw [actSteps_append, hrest, List.append_nil, actSteps_append, after_append, hst.now.after] at hq
  have hact : flushAct env true win g = .flush win g ∨
      flushAct env true win g = .flushLocal win g := by
    unfold flushAct
    split
    · exact .inl rfl
    · exact .inr rfl
  rcases hact with hact | hact <;> rw [hact] at hq
  · rw [hs.after_flush] at hq
    exact hq.elim
  · obtain ⟨hheld, x, hx, a, hqx⟩ := hs.after_flushLocal hq
    rw [hs.xfers hrank env.me] at hx
    obtain ⟨e, he, rfl⟩ := List.mem_map.mp hx
    exact ⟨hheld, e, he, a, hqx⟩

end

-- ------------------------------
-- Gets
-- ------------------------------

def backEnds (me : Nat) (segs : List Seg) : List (Loc × Loc) :=
  (segs.filter fun s => s.buf ≠ s.user).map fun s => ((me, s.buf), (me, s.user))

/-- The actions of a blocking get of segments of `n` bytes. -/
inductive GetCall (env : Env) (n proc : Nat) (segs : List Seg) : List Act → Prop
  | mk (a₁ a₂ a₃ win g) (start : actSteps env.me a₁ = [])
      (sends : Sends .get .byte win g a₂ ((segs.map Seg.sent).flatMap (segPairs 1 n)))
      (rank : win.comm.rankOf proc = some g) (now : OnlyNow (actSteps env.me a₃))
      (back : actXfers env.me a₃ = moveAll (fun x _ => x) n (backEnds env.me segs)) :
      GetCall env n proc segs (a₁ ++ (a₂ ++ [.flush win g]) ++ a₃)

/-- What the caller asks for does not overlap, nothing of it is scratch memory, and
temporary buffers are. -/
structure GetOk (env : Env) (n proc : Nat) (arena : Set Int) (segs : List Seg) : Prop where
  spread : Spread n ((segs.map Seg.asked).map (RmaKind.get.ends env.me proc))
  outside : ∀ s ∈ segs, block (proc, s.rem) n ⊆ (scratch env.me arena)ᶜ
  user : ∀ s ∈ segs, block (env.me, s.user) n ⊆ (scratch env.me arena)ᶜ
  place : ∀ s ∈ segs, s.buf = s.user ∨ block (env.me, s.buf) n ⊆ scratch env.me arena
  bufs : segs.Pairwise fun s s' => Disjoint (block (env.me, s.buf) n) (block (env.me, s'.buf) n)

def getEffect (env : Env) (n proc : Nat) (segs : List Seg) : List (Xfer Loc UInt8) :=
  moveAll (fun x _ => x) 1
    (((segs.map Seg.asked).flatMap (segPairs 1 n)).map (RmaKind.get.ends env.me proc))

section
variable {env : Env} {n proc : Nat} {arena : Set Int} {segs : List Seg} {acts : List Act}

theorem GetOk.spread_sent (h : GetOk env n proc arena segs) :
    Spread n ((segs.map Seg.sent).map (RmaKind.get.ends env.me proc)) := by
  have hsources := h.spread.sources
  simp only [List.map_map, List.mem_map, Function.comp_apply, Seg.asked, RmaKind.ends,
    forall_exists_index, and_imp, forall_apply_eq_imp_iff₂] at hsources
  constructor
  · simpa only [List.map_map, List.pairwise_map, Function.comp_apply, Seg.sent,
      RmaKind.ends] using h.bufs
  · simp only [List.map_map, List.mem_map, Function.comp_apply, Seg.sent, RmaKind.ends,
      forall_exists_index, and_imp, forall_apply_eq_imp_iff₂]
    intro s hs s' hs'
    rcases h.place s' hs' with heq | hin
    · rw [heq]
      exact hsources s hs s' hs'
    · exact (disjoint_compl_right.mono hin (h.outside s hs)).symm

theorem GetOk.spread_back (h : GetOk env n proc arena segs) : Spread n (backEnds env.me segs) := by
  have htargets := h.spread.targets
  simp only [List.map_map, List.pairwise_map, Function.comp_apply, Seg.asked, RmaKind.ends]
    at htargets
  constructor
  · rw [backEnds, List.pairwise_map]
    exact htargets.sublist List.filter_sublist
  · intro e he e' he'
    obtain ⟨s, hs, rfl⟩ := List.mem_map.mp he
    obtain ⟨s', hs', rfl⟩ := List.mem_map.mp he'
    obtain ⟨hs, hne⟩ := List.mem_filter.mp hs
    have hin := (h.place s hs).resolve_left (of_decide_eq_true hne)
    exact disjoint_compl_right.mono hin (h.user s' (List.mem_filter.mp hs').1)

theorem GetCall.free (h : GetCall env n proc segs acts) (hok : GetOk env n proc arena segs) :
    RaceFree ∅ (actSteps env.me acts) := by
  obtain ⟨a₁, a₂, a₃, win, g, hstart, hs, hrank, hnow, -⟩ := h
  rw [actSteps_append, actSteps_append, hstart, List.nil_append, raceFree_append, hs.after_flush]
  refine ⟨raceFree_of_indep (fun p hp => hp.elim) ?_, hnow.raceFree⟩
  rw [← actXfers, hs.xfers_flush hrank]
  have hspread := hok.spread_sent
  rw [← Nat.mul_one n] at hspread
  exact hspread.elems.indep _

theorem GetCall.after_empty (h : GetCall env n proc segs acts) :
    after ∅ (actSteps env.me acts) = ∅ := by
  obtain ⟨a₁, a₂, a₃, win, g, hstart, hs, hrank, hnow, -⟩ := h
  rw [actSteps_append, actSteps_append, hstart, List.nil_append, after_append, hs.after_flush,
    hnow.after]

theorem Moved.get_byte {me : Nat} {ps : List (Int × Int)} {m m' : Mem}
    (h : Moved .get .byte me proc n ps m m') {p : Int × Int} (hp : p ∈ ps) {j : Nat} (hj : j < n) :
    m' (me, p.1 + j) = m (proc, p.2 + j) := by
  simpa [bytesAt, BaseType.size, RmaKind.ends, RmaKind.fn, Loc.shift] using h.elems p hp j hj

/-- Getting into temporary buffers and copying from there is as good as getting
directly. -/
theorem GetOk.through (hok : GetOk env n proc arena segs) {m m₁ m₂ : Mem}
    (hsent : Moved .get .byte env.me proc n (segs.map Seg.sent) m m₁)
    (hasked : Moved .get .byte env.me proc n (segs.map Seg.asked) m m₂) :
    Set.EqOn (Xfer.applyAll (moveAll (fun x _ => x) n (backEnds env.me segs)) m₁) m₂
      (scratch env.me arena)ᶜ := by
  have htargets := hok.spread.targets
  simp only [List.map_map, List.pairwise_map, Function.comp_apply, Seg.asked, RmaKind.ends]
    at htargets
  have hout : ∀ l, (∀ s ∈ segs, s.buf ≠ s.user → l ∉ block (env.me, s.user) n) →
      Xfer.applyAll (moveAll (fun x _ => x) n (backEnds env.me segs)) m₁ l = m₁ l := by
    intro l hl
    refine moveAll_frame (s := {l}) (fun e he => ?_) m₁ rfl
    obtain ⟨s, hs, rfl⟩ := List.mem_map.mp he
    obtain ⟨hs, hne⟩ := List.mem_filter.mp hs
    exact Set.disjoint_singleton_right.mpr (hl s hs (of_decide_eq_true hne))
  intro l hl
  by_cases hin : ∃ s ∈ segs, l ∈ block (env.me, s.user) n
  · obtain ⟨s, hs, hls⟩ := hin
    obtain ⟨i, hi, rfl⟩ := mem_block_iff.mp hls
    have hgot : m₂ (env.me, s.user + (i : Int)) = m (proc, s.rem + (i : Int)) :=
      hasked.get_byte (List.mem_map_of_mem hs) hi
    have hbufGot : m₁ (env.me, s.buf + (i : Int)) = m (proc, s.rem + (i : Int)) :=
      hsent.get_byte (List.mem_map_of_mem hs) hi
    show Xfer.applyAll _ m₁ (env.me, s.user + (i : Int)) = m₂ (env.me, s.user + (i : Int))
    rw [hgot, ← hbufGot]
    by_cases hbuf : s.buf = s.user
    · rw [hbuf]
      refine hout _ fun s' hs' hne hmem => ?_
      have hdiff : s ≠ s' := fun heq => hne (heq ▸ hbuf)
      have hsymm : Std.Symm fun s s' : Seg =>
        Disjoint (block (env.me, s.user) n) (block (env.me, s'.user) n) := ⟨fun _ _ h => h.symm⟩
      exact (htargets.forall hs hs' hdiff).notMem_of_mem_left hls hmem
    · have hmem : ((env.me, s.buf), (env.me, s.user)) ∈ backEnds env.me segs :=
        List.mem_map_of_mem (f := fun s : Seg => ((env.me, s.buf), (env.me, s.user)))
          (List.mem_filter.mpr ⟨hs, decide_eq_true hbuf⟩)
      exact bytesAt_apply (moveAll_bytes (fun x _ hx _ => hx) hok.spread_back m₁ hmem) hi
  · have hnone : ∀ s ∈ segs, l ∉ block (env.me, s.user) n := fun s hs hls => hin ⟨s, hs, hls⟩
    have hsize : n * BaseType.byte.size = n := Nat.mul_one n
    have hkept : m₁ l = m l := by
      refine hsent.frame l fun p hp => ?_
      obtain ⟨s, hs, rfl⟩ := List.mem_map.mp hp
      rw [hsize]
      rcases hok.place s hs with heq | hscratch
      · exact fun hls => hnone s hs (heq ▸ hls)
      · exact fun hls => hl (hscratch hls)
    have hkept' : m₂ l = m l := by
      refine hasked.frame l fun p hp => ?_
      obtain ⟨s, hs, rfl⟩ := List.mem_map.mp hp
      rw [hsize]
      exact hnone s hs
    rw [hout l fun s hs _ => hnone s hs, hkept, hkept']

theorem GetCall.xfers (h : GetCall env n proc segs acts) :
    actXfers env.me acts =
      moveAll (RmaKind.get.fn .byte) BaseType.byte.size
        (((segs.map Seg.sent).flatMap (segPairs 1 n)).map (RmaKind.get.ends env.me proc)) ++
      moveAll (fun x _ => x) n (backEnds env.me segs) := by
  obtain ⟨a₁, a₂, a₃, win, g, hstart, hs, hrank, -, hback⟩ := h
  have hnil : actXfers env.me a₁ = [] := by rw [actXfers, hstart]; rfl
  rw [actXfers_append, actXfers_append, hs.xfers_flush hrank, hnil, hback, List.nil_append]

theorem GetCall.effect (h : GetCall env n proc segs acts) (hok : GetOk env n proc arena segs)
    (m : Mem) :
    Set.EqOn (Xfer.applyAll (actXfers env.me acts) m)
      (Xfer.applyAll (getEffect env n proc segs) m) (scratch env.me arena)ᶜ := by
  rw [h.xfers, Xfer.applyAll_append, getEffect]
  have hsize : n = n * BaseType.byte.size := (Nat.mul_one n).symm
  have hsent := moved_moveAll (hsize ▸ hok.spread_sent) m
  have hasked := moved_moveAll (hsize ▸ hok.spread) m
  exact hok.through hsent hasked

end

end ArmciMpi
