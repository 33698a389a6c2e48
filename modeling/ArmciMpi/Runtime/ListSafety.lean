import ArmciMpi.Runtime.ListThreads

/-!
# The region list is safe under threads

Every statement of `gmr_create`, `gmr_destroy`, of a walk along the list and of an
operation with a handle keeps the invariant of `ListThreads.lean`, whatever the
other threads are doing. Under the contract no thread ever follows a dangling
pointer and no region is lost (`threads_keep_list`), and a walk without the mutex
answers for the list as it was at some moment between its call and its return
(`walks_linearizable`).
-/

namespace ArmciMpi.ListThreads

open Lib

variable {world : World} {nproc n : Nat} {s t : State n} {i j : Fin n}

-- ------------------------------
-- The cells
-- ------------------------------

/-- A pending write changes no value and no `next` pointer. -/
theorem Pc.settle_next (p : Pc) {cells : Nat → Option (Cell Gmr)}
    (h : p.settle cells a = some ⟨v, q, r⟩) : ∃ q, cells a = some ⟨v, q, r⟩ := by
  have hset : ∀ n q', setPrev cells n q' a = some ⟨v, q, r⟩ → ∃ q, cells a = some ⟨v, q, r⟩ := by
    intro n q' h
    unfold setPrev at h
    split at h
    · obtain ⟨⟨v', q'', r'⟩, hc, heq⟩ := Option.map_eq_some_iff.mp h
      cases heq
      exact ⟨q'', hc⟩
    · exact ⟨q, h⟩
  cases p with
  | createPrev | destroyPrev => exact hset _ _ h
  | _ => exact ⟨q, h⟩

namespace Inv

theorem owner (h : Inv nproc s) (hi : (s.pc i).critical = true) : s.owner = some i :=
  (h.mutex i).mpr hi

theorem alone (h : Inv nproc s) (hi : (s.pc i).critical = true) (hj : j ≠ i) :
    (s.pc j).critical = false := by
  by_contra hc
  have hoj := h.owner (by simpa using hc)
  rw [h.owner hi] at hoj
  exact hj (by cases hoj; rfl)

theorem settled_eq (h : Inv nproc s) (hi : (s.pc i).critical = true) :
    s.settled = (s.pc i).settle s.cells := by
  rw [State.settled, h.owner hi]

theorem settled_at (h : Inv nproc s) (hi : s.pc i = q) (hq : q.critical = true) :
    s.settled = q.settle s.cells := by
  subst hi
  exact h.settled_eq hq

theorem place_at (h : Inv nproc s) (hi : s.pc i = q) : s.Place nproc q := hi ▸ h.place i

/-- The region that follows in the list is the one the `next` pointer names. -/
theorem next_eq (h : Inv nproc s) (hl : s.live = l ++ (a, m) :: r) :
    ∃ q, s.cells a = some ⟨m, q, headAddr r⟩ := by
  have hc := h.linked.links l a m r hl
  cases howner : s.owner with
  | none =>
    simp only [State.settled, howner] at hc
    exact ⟨_, hc⟩
  | some i =>
    simp only [State.settled, howner] at hc
    exact Pc.settle_next _ hc

theorem cell (h : Inv nproc s) (ha : a ∈ s.addrs) :
    ∃ l m r q, s.live = l ++ (a, m) :: r ∧ s.cells a = some ⟨m, q, headAddr r⟩ := by
  obtain ⟨⟨b, m⟩, hm, rfl⟩ := List.mem_map.mp ha
  obtain ⟨l, r, hl⟩ := List.append_of_mem hm
  obtain ⟨q, hq⟩ := h.next_eq hl
  exact ⟨l, m, r, q, hl, hq⟩

theorem claimed (h : Inv nproc s) (ha : (s.pc i).claim = some a) : s.cells a ≠ none := by
  have hfresh : s.Fresh nproc a → s.cells a ≠ none := by
    rintro ⟨⟨m, hc, -⟩, -⟩
    simp [hc]
  have hlive : a ∈ s.addrs → s.cells a ≠ none := by
    intro hm
    obtain ⟨_, _, _, _, -, hc⟩ := h.cell hm
    simp [hc]
  have hp := h.place i
  revert ha hp
  cases s.pc i <;> simp only [Pc.claim, State.Place, Option.some.injEq, reduceCtorEq,
    false_implies] <;> rintro rfl hp
  case createLock | createHead => exact hfresh hp
  case createFirst | createWalk | createNext => exact hfresh hp.1
  case createPrev | destroyLock | destroyTest => exact hlive hp
  case destroyHead => exact hlive (mem_of_headAddr hp)
  case destroyNext => exact hlive hp.1
  case destroyPrev =>
    obtain ⟨⟨c, hc, -⟩, -⟩ := hp
    simp [hc]
  case destroyUnlock | destroyEpoch | destroyFree => exact hp.1

theorem owned (h : Inv nproc s) (hi : s.pc i = q) (ha : s.cells a ≠ none) :
    a ∈ s.addrs ∨ q.claim = some a ∨ ∃ j, j ≠ i ∧ (s.pc j).claim = some a := by
  subst hi
  rcases h.allocated a ha with ha | ⟨j, ha⟩
  · exact .inl ha
  · by_cases hj : j = i
    · exact .inr (.inl (hj ▸ ha))
    · exact .inr (.inr ⟨j, hj, ha⟩)

theorem quiet (h : Inv nproc s) (hi : s.pc i = q) (hcells : t.cells = s.cells)
    (hhead : t.head = s.head) (hlive : t.live = s.live) (howner : t.owner = s.owner)
    (hpc : t.pc = Function.update s.pc i p)
    (hout : q.critical = true ∨ ∀ b, t.outstanding b ≤ s.outstanding b)
    (hcrit : p.critical = q.critical) (hsettle : p.settle s.cells = q.settle s.cells)
    (hadmits : Admits s i p) (hkeep : ∀ a, q.claim = some a → p.claim = some a)
    (hp : t.Place nproc p) (hans : ∀ ans ∈ t.answers, ans.Linearizable) : Inv nproc t := by
  subst hi
  have hpi : t.pc i = p := by simp [hpc]
  have hpj : ∀ j, j ≠ i → t.pc j = s.pc j := fun j hj => by simp [hpc, hj]
  have hset : ∀ j, (t.pc j).settle s.cells = (s.pc j).settle s.cells := fun j => by
    by_cases hj : j = i
    · rw [hj, hpi, hsettle]
    · rw [hpj j hj]
  refine h.step hpc (fun j => ?_) ?_ (by rw [hlive]; exact h.sizes) hadmits
    (fun j hj => ?_) (fun a ha => ?_) hp hans
  · rw [howner, h.mutex j]
    by_cases hj : j = i
    · rw [hj, hpi, hcrit]
    · rw [hpj j hj]
  · have : t.settled = s.settled := by
      unfold State.settled
      rw [howner, hcells]
      split
      · exact hset _
      · rfl
    rw [this, hhead, hlive]
    exact h.linked
  · refine ⟨fun a _ ha => ⟨by rw [hcells], by rwa [State.addrs, hlive]⟩,
      fun a _ ha => by rwa [State.addrs, hlive], fun hc => ⟨hlive, ?_⟩,
      fun _ => hlive ▸ List.prefix_refl _⟩
    rcases hout with hi | hout
    · rw [h.alone hi hj] at hc
      cases hc
    · exact hout
  · rw [hcells] at ha
    rw [State.addrs, hlive]
    exact (h.owned rfl ha).imp id (Or.imp (hkeep a) id)

theorem goto (h : Inv nproc s) (hi : s.pc i = q) (hcrit : p.critical = q.critical)
    (hsettle : p.settle s.cells = q.settle s.cells) (hf : Follows q p)
    (hkeep : ∀ a, q.claim = some a → p.claim = some a) (hp : s.Place nproc p) :
    Inv nproc (s.goto i p) :=
  h.quiet hi rfl rfl rfl rfl rfl (.inr fun _ => le_rfl) hcrit hsettle (h.admits hi hf) hkeep
    (hp.same rfl rfl fun _ => le_rfl) h.answers

theorem turnstile (h : Inv nproc s) (hi : s.pc i = q) (hcells : t.cells = s.cells)
    (hhead : t.head = s.head) (hlive : t.live = s.live) (hout : t.outstanding = s.outstanding)
    (hans : t.answers = s.answers) (hpc : t.pc = Function.update s.pc i p)
    (hmutex : ∀ j, t.owner = some j ↔ (t.pc j).critical = true)
    (hsettled : t.settled = s.settled) (hf : Follows q p)
    (hkeep : ∀ a, q.claim = some a → p.claim = some a) (hp : s.Place nproc p) :
    Inv nproc t := by
  have hle : ∀ b, t.outstanding b ≤ s.outstanding b := fun b => by rw [hout]
  refine h.step hpc hmutex ?_ (by rw [hlive]; exact h.sizes) (h.admits hi hf)
    (fun j _ => .of_eq hcells hlive hle _) (fun a ha => ?_) (hp.same hcells hlive hle)
    (by rw [hans]; exact h.answers)
  · rw [hsettled, hhead, hlive]
    exact h.linked
  · rw [hcells] at ha
    rw [State.addrs, hlive]
    exact (h.owned hi ha).imp id (Or.imp (hkeep a) id)

theorem lock (h : Inv nproc s) (hi : s.pc i = q) (ht : s.pthreadLock i p = some t)
    (hcrit : p.critical = true) (hsettle : p.settle s.cells = s.cells) (hf : Follows q p)
    (hkeep : ∀ a, q.claim = some a → p.claim = some a) (hp : s.Place nproc p) :
    Inv nproc t := by
  unfold State.pthreadLock at ht
  split at ht
  · rename_i hnone
    cases ht
    refine h.turnstile hi rfl rfl rfl rfl rfl rfl (fun j => ?_) ?_ hf hkeep hp
    · by_cases hj : j = i
      · subst hj
        simp [State.goto, hcrit]
      · have hno := h.mutex j
        simp only [hnone, reduceCtorEq, false_iff, Bool.not_eq_true] at hno
        simp [State.goto, hj, hno, Ne.symm hj]
    · simp [State.settled, State.goto, hsettle, hnone]
  · cases ht

theorem unlock (h : Inv nproc s) (hi : s.pc i = q) (hq : q.critical = true)
    (hsettle : q.settle s.cells = s.cells) (hcrit : p.critical = false)
    (hf : Follows q p) (hkeep : ∀ a, q.claim = some a → p.claim = some a)
    (hp : s.Place nproc p) : Inv nproc (s.pthreadUnlock i p) := by
  subst hi
  refine h.turnstile rfl rfl rfl rfl rfl rfl rfl (fun j => ?_) ?_ hf hkeep hp
  · by_cases hj : j = i
    · subst hj
      simp [State.pthreadUnlock, State.goto, hcrit]
    · simp [State.pthreadUnlock, State.goto, hj, h.alone hq hj]
  · rw [h.settled_eq hq, hsettle]
    rfl

/-- A write to the list by the owner of the mutex. It touches the regions on the list
and the one it was called for. -/
theorem write (h : Inv nproc s) (hq : s.pc i = q) (hi : q.critical = true)
    (hcrit : p.critical = true) (howner : t.owner = s.owner)
    (hpc : t.pc = Function.update s.pc i p) (hans : t.answers = s.answers)
    (hcells : ∀ b, b ∉ s.addrs → q.claim ≠ some b → t.cells b = s.cells b)
    (haddrs : ∀ b, q.claim ≠ some b → (b ∈ t.addrs ↔ b ∈ s.addrs))
    (hwalk : s.live <+: t.live ∨ q.destroying = true)
    (hlinked : Linked (p.settle t.cells) t.head t.live)
    (hsizes : ∀ x ∈ t.live, x.2.nslices = nproc) (hf : Follows q p)
    (hkeep : ∀ a, q.claim = some a → p.claim = some a ∨ a ∈ t.addrs) (hp : t.Place nproc p) :
    Inv nproc t := by
  subst hq
  have hpi : t.pc i = p := by simp [hpc]
  have hpj : ∀ j, j ≠ i → t.pc j = s.pc j := fun j hj => by simp [hpc, hj]
  refine h.step hpc (fun j => ?_) ?_ hsizes (h.admits rfl hf) (fun j hj => ?_) (fun a ha => ?_)
    hp (by rw [hans]; exact h.answers)
  · rw [howner, h.mutex j]
    by_cases hj : j = i
    · rw [hj, hpi, hcrit, hi]
    · rw [hpj j hj]
  · rw [State.settled, howner, h.owner hi]
    simpa only [hpi] using hlinked
  · have hother : ∀ b, (s.pc j).claim = some b → (s.pc i).claim ≠ some b :=
      fun b hb hbi => hj (h.claims j i b hb hbi)
    refine ⟨fun b hb hout => ⟨hcells b hout (hother b hb), ?_⟩, fun b hb hin => ?_, fun hc => ?_,
      fun hw => ?_⟩
    · rwa [haddrs b (hother b hb)]
    · rwa [haddrs b (hother b hb)]
    · rw [h.alone hi hj] at hc
      cases hc
    · rcases hwalk with hwalk | hd
      · exact hwalk
      · rw [h.apart j i hw] at hd
        cases hd
  · by_cases hclaim : (s.pc i).claim = some a
    · exact (hkeep a hclaim).elim (.inr ∘ .inl) .inl
    · by_cases hin : a ∈ s.addrs
      · exact .inl ((haddrs a hclaim).mpr hin)
      · rw [hcells a hin hclaim] at ha
        rcases h.owned rfl ha with hin' | hclaim' | hj
        · exact absurd hin' hin
        · exact absurd hclaim' hclaim
        · exact .inr (.inr hj)

end Inv

-- ------------------------------
-- The statements of a create
-- ------------------------------

theorem State.deref_some (hc : s.cells a = some c) (k : Cell Gmr → State n) :
    s.deref i a k = k c := by
  simp only [State.deref, hc]

namespace Inv

theorem createHead (h : Inv nproc s) (hpc : s.pc i = .createHead a) (ht : s.turn world i = some t) :
    Inv nproc t := by
  have hp := h.place_at hpc
  simp only [State.turn, hpc] at ht
  cases hh : s.head with
  | none =>
    simp only [hh, Option.some.injEq] at ht
    subst ht
    refine h.goto hpc rfl rfl ⟨fun _ => id, id, id⟩ (fun _ => id) ⟨hp, ?_⟩
    have hnil := h.linked.head
    rw [hh] at hnil
    cases hl : s.live with
    | nil => rfl
    | cons x xs => simp [hl] at hnil
  | some b =>
    simp only [hh, Option.some.injEq] at ht
    subst ht
    exact h.goto hpc rfl rfl ⟨fun _ => id, id, id⟩ (fun _ => id)
      ⟨hp, mem_of_headAddr (h.linked.head ▸ hh)⟩

theorem createFirst (h : Inv nproc s) (hpc : s.pc i = .createFirst a)
    (ht : s.turn world i = some t) : Inv nproc t := by
  obtain ⟨⟨⟨m, hc, hm⟩, -⟩, hnil⟩ := h.place_at hpc
  simp only [State.turn, hpc, State.deref_some hc, Option.some.injEq] at ht
  subst ht
  refine h.write hpc rfl rfl rfl rfl rfl (fun _ _ _ => rfl) (fun b hb => ?_)
    (.inl (List.prefix_append _ _)) ?_ ?_ (.unlock _) ?_ trivial
  · have hne : b ≠ a := fun he => hb (he ▸ rfl)
    simp [State.addrs, State.goto, State.link, hnil, hne]
  · have hfirst := Linked.first m s.cells a
    rw [← hc, Function.update_eq_self] at hfirst
    simpa only [State.goto, State.link, hnil, List.nil_append, Pc.settle] using hfirst
  · simpa [State.goto, State.link, hnil] using hm
  · rintro b hb
    cases hb
    simp [State.addrs, State.goto, State.link]

theorem createWalk (h : Inv nproc s) (hpc : s.pc i = .createWalk a parent)
    (ht : s.turn world i = some t) : Inv nproc t := by
  obtain ⟨hfresh, hp⟩ := h.place_at hpc
  obtain ⟨l, m, r, q, hl, hc⟩ := h.cell hp
  simp only [State.turn, hpc, State.deref_some hc, Option.some.injEq] at ht
  subst ht
  cases r with
  | nil =>
    refine h.goto hpc rfl rfl ⟨fun _ => id, id, id⟩ (fun _ => id) ⟨hfresh, ?_⟩
    rw [hl, lastAddr_snoc]
  | cons x r =>
    refine h.goto hpc rfl rfl ⟨fun _ => id, id, id⟩ (fun _ => id) ⟨hfresh, ?_⟩
    simp [State.addrs, hl]

theorem createNext (h : Inv nproc s) (hpc : s.pc i = .createNext a parent)
    (ht : s.turn world i = some t) : Inv nproc t := by
  obtain ⟨⟨⟨m, hca, hm⟩, hout⟩, hlast⟩ := h.place_at hpc
  have hparent : parent ∈ s.addrs := mem_of_lastAddr hlast
  obtain ⟨_, v, _, q, -, hc⟩ := h.cell hparent
  have hne : a ≠ parent := fun he => hout (he ▸ hparent)
  simp only [State.turn, hpc, State.deref_some hc, State.deref_some hca, Option.some.injEq] at ht
  subst ht
  refine h.write hpc rfl rfl rfl rfl rfl (fun b hb _ => ?_) (fun b hb => ?_)
    (.inl (List.prefix_append _ _)) ?_ (fun x hx => ?_) ⟨fun _ => id, id, id⟩ (fun _ => .inl) ?_
  · have hbp : b ≠ parent := fun he => hb (he ▸ hparent)
    simp [State.goto, State.link, State.store, hbp]
  · have hba : b ≠ a := fun he => hb (he ▸ rfl)
    simp [State.addrs, State.goto, State.link, State.store, hba]
  · -- with the write to `mreg->prev` the region is the last one of the list
    have hl := h.linked
    rw [h.settled_at hpc rfl] at hl
    have hca' : Function.update s.cells parent (some ⟨v, q, some a⟩) a = some ⟨m, none, none⟩ := by
      rw [Function.update_of_ne hne, hca]
    simpa only [State.goto, State.link, State.store, Pc.settle, setPrev_some hca']
      using hl.append hout hlast hc m
  · rcases List.mem_append.mp hx with hx | hx
    · exact h.sizes x hx
    · rw [List.mem_singleton.mp hx]
      exact hm
  · simp [State.Place, State.addrs, State.goto, State.link]

theorem createPrev (h : Inv nproc s) (hpc : s.pc i = .createPrev a parent)
    (ht : s.turn world i = some t) : Inv nproc t := by
  have hp : a ∈ s.addrs := h.place_at hpc
  obtain ⟨_, m, r, q, -, hc⟩ := h.cell hp
  simp only [State.turn, hpc, State.deref_some hc, Option.some.injEq] at ht
  subst ht
  refine h.write hpc rfl rfl rfl rfl rfl (fun b hb _ => ?_) (fun b _ => .rfl)
    (.inl (List.prefix_refl _)) ?_ h.sizes (.unlock _) ?_ trivial
  · have hba : b ≠ a := fun he => hb (he ▸ hp)
    simp [State.goto, State.store, hba]
  · have hl := h.linked
    rwa [h.settled_at hpc rfl, Pc.settle, setPrev_some hc] at hl
  · rintro b hb
    cases hb
    exact .inr hp

-- ------------------------------
-- The statements of a destroy
-- ------------------------------

theorem cell_at (h : Inv nproc s) (hpc : s.pc i = q) (hq : q.critical = true)
    (hsettle : q.settle s.cells = s.cells) (ha : a ∈ s.addrs) :
    ∃ l m r, s.live = l ++ (a, m) :: r ∧ s.cells a = some ⟨m, lastAddr l, headAddr r⟩ := by
  obtain ⟨⟨b, m⟩, hm, rfl⟩ := List.mem_map.mp ha
  obtain ⟨l, r, hl⟩ := List.append_of_mem hm
  have hc := h.linked.links l b m r hl
  rw [h.settled_at hpc hq, hsettle] at hc
  exact ⟨l, m, r, hl, hc⟩

theorem filter_addr {l r : List (Nat × Gmr)} (hnd : ((l ++ (a, m) :: r).map Prod.fst).Nodup) :
    (l ++ (a, m) :: r).filter (·.1 ≠ a) = l ++ r := by
  rw [List.map_append, List.map_cons, List.nodup_middle, List.nodup_cons, ← List.map_append] at hnd
  have hne : ∀ x ∈ l ++ r, x.1 ≠ a := fun x hx he => hnd.1 (List.mem_map.mpr ⟨x, hx, he⟩)
  rw [List.filter_append, List.filter_cons_of_neg (by simp),
    List.filter_eq_self.mpr fun x hx => by simpa using hne x (List.mem_append_left _ hx),
    List.filter_eq_self.mpr fun x hx => by simpa using hne x (List.mem_append_right _ hx)]

theorem destroyTest (h : Inv nproc s) (hpc : s.pc i = .destroyTest a)
    (ht : s.turn world i = some t) : Inv nproc t := by
  have hp : a ∈ s.addrs := h.place_at hpc
  obtain ⟨l, m, r, hl, hc⟩ := h.cell_at hpc rfl rfl hp
  simp only [State.turn, hpc, State.deref_some hc, Option.some.injEq] at ht
  subst ht
  rcases List.eq_nil_or_concat l with rfl | ⟨l, x, rfl⟩
  · refine h.goto hpc rfl rfl ⟨fun _ => id, id, id⟩ (fun _ => id) ?_
    show headAddr s.live = some a
    rw [hl]
    rfl
  · rw [List.concat_eq_append, lastAddr_snoc]
    refine h.goto hpc rfl rfl ⟨fun _ => id, id, id⟩ (fun _ => id) ⟨hp, fun hhead => ?_⟩
    have hnd := h.linked.nodup
    rw [hl] at hnd hhead
    cases l with
    | nil =>
      obtain rfl : x.1 = a := by simpa using hhead
      simp at hnd
    | cons y l =>
      obtain rfl : y.1 = a := by simpa using hhead
      simp at hnd

/-- The write that takes a region out of the chain of `next` pointers. -/
theorem unlink (h : Inv nproc s) (hpc : s.pc i = q) (hq : q.critical = true)
    (hsettle : q.settle s.cells = s.cells) (hclaim : q.claim = some a)
    (hdestroy : q.destroying = true) (hl : s.live = l ++ (a, m) :: r) :
    Inv nproc ({ s with
      cells := setNext s.cells (lastAddr l) (headAddr r)
      head := headAddr (l ++ r)
      live := l ++ r }.goto i (.destroyPrev a (lastAddr l))) := by
  have hlinked := h.linked
  rw [h.settled_at hpc hq, hsettle, hl] at hlinked
  have hnd := hlinked.nodup
  rw [List.map_append, List.map_cons, List.nodup_middle, List.nodup_cons, ← List.map_append] at hnd
  have hla : lastAddr l ≠ some a := fun he =>
    hnd.1 (by rw [List.map_append]; exact List.mem_append_left _ (mem_of_lastAddr he))
  have hca : setNext s.cells (lastAddr l) (headAddr r) a = some ⟨m, lastAddr l, headAddr r⟩ := by
    rw [setNext, if_neg hla]
    exact hlinked.links l a m r rfl
  refine h.write hpc hq rfl rfl rfl rfl (fun b hb _ => ?_) (fun b hb => ?_) (.inr hdestroy) ?_
    (fun x hx => h.sizes x ?_)
    ⟨fun _ hc => hclaim.trans hc, fun hw => absurd hw Bool.false_ne_true, fun _ => hdestroy⟩
    (fun _ hc => .inl (hclaim.symm.trans hc)) ⟨⟨_, hca, fun b hb => ?_⟩, hnd.1⟩
  · have hlb : lastAddr l ≠ some b := fun he => hb (by
      rw [State.addrs, hl, List.map_append]
      exact List.mem_append_left _ (mem_of_lastAddr he))
    simp only [State.goto, setNext, if_neg hlb]
  · have hba : b ≠ a := fun he => hb (he ▸ hclaim)
    simp [State.addrs, State.goto, hl, hba]
  · simpa only [State.goto, Pc.settle, hca, Option.bind_some] using hlinked.around
  · rw [hl]
    have hx : x ∈ l ++ r := hx
    simp only [List.mem_append, List.mem_cons] at hx ⊢
    exact hx.imp id .inr
  · exact List.mem_map.mpr (by
      obtain ⟨x, hx, rfl⟩ := List.mem_map.mp (mem_of_headAddr hb)
      exact ⟨x, List.mem_append_right _ hx, rfl⟩)

theorem destroyHead (h : Inv nproc s) (hpc : s.pc i = .destroyHead a)
    (ht : s.turn world i = some t) : Inv nproc t := by
  have hp : headAddr s.live = some a := h.place_at hpc
  have hhead : s.head = some a := h.linked.head.trans hp
  obtain ⟨l, m, r, hl, hc⟩ := h.cell_at hpc rfl rfl (mem_of_headAddr hp)
  obtain rfl : l = [] := by
    cases l with
    | nil => rfl
    | cons x l =>
      have hnd := h.linked.nodup
      rw [hl] at hnd hp
      obtain rfl : x.1 = a := by simpa using hp
      simp at hnd
  have hu := h.unlink hpc rfl rfl rfl rfl hl
  simp only [lastAddr_nil, setNext_none, List.nil_append] at hu
  have hfilter := filter_addr (hl ▸ h.linked.nodup)
  simp only [State.turn, hpc, hhead, if_true, State.deref_some hc, Option.some.injEq] at ht
  subst ht
  simp only [State.drop, hl, hfilter]
  exact hu

theorem destroyNext (h : Inv nproc s) (hpc : s.pc i = .destroyNext a)
    (ht : s.turn world i = some t) : Inv nproc t := by
  obtain ⟨hp, hhead⟩ := h.place_at hpc
  obtain ⟨l, m, r, hl, hc⟩ := h.cell_at hpc rfl rfl hp
  rcases List.eq_nil_or_concat l with rfl | ⟨l, x, rfl⟩
  · exact absurd (by rw [hl]; rfl) hhead
  rw [List.concat_eq_append] at hl hc
  have hx : x.1 ∈ s.addrs := by simp [State.addrs, hl]
  obtain ⟨_, v, _, q, -, hcx⟩ := h.cell hx
  have hu := h.unlink hpc rfl rfl rfl rfl hl
  have hfilter := filter_addr (hl ▸ h.linked.nodup)
  rw [lastAddr_snoc] at hc hu
  simp only [State.turn, hpc, State.deref_some hc, State.deref_some hcx, Option.some.injEq] at ht
  subst ht
  have hh : s.head = headAddr (l ++ [x] ++ r) := by
    rw [h.linked.head, hl]
    cases l <;> rfl
  simp only [State.drop, State.store, hl, hfilter, hh]
  rwa [setNext_some hcx] at hu

theorem destroyPrev (h : Inv nproc s) (hpc : s.pc i = .destroyPrev a p)
    (ht : s.turn world i = some t) : Inv nproc t := by
  obtain ⟨⟨⟨m, q, nx⟩, hc, hnext⟩, hout⟩ := h.place_at hpc
  have hl := h.linked
  rw [h.settled_at hpc rfl, Pc.settle, hc, Option.bind_some] at hl
  have hkept : s.Unlinked a := ⟨by simp [hc], hout⟩
  cases nx with
  | none =>
    simp only [State.turn, hpc, State.deref_some hc, Option.some.injEq] at ht
    subst ht
    refine h.write hpc rfl rfl rfl rfl rfl (fun _ _ _ => rfl) (fun _ _ => .rfl)
      (.inl (List.prefix_refl _)) ?_ h.sizes ⟨fun _ => id, id, id⟩ (fun _ => .inl)
      (State.Place.same hkept rfl rfl fun _ => le_rfl)
    rwa [setPrev_none] at hl
  | some b =>
    have hb : b ∈ s.addrs := hnext b rfl
    obtain ⟨_, v, _, q, -, hcb⟩ := h.cell hb
    simp only [State.turn, hpc, State.deref_some hc, State.deref_some hcb,
      Option.some.injEq] at ht
    subst ht
    have hab : a ≠ b := fun he => hout (he ▸ hb)
    refine h.write hpc rfl rfl rfl rfl rfl (fun c hc _ => ?_) (fun _ _ => .rfl)
      (.inl (List.prefix_refl _)) ?_ h.sizes ⟨fun _ => id, id, id⟩ (fun _ => .inl) ⟨?_, hout⟩
    · have hcb : c ≠ b := fun he => hc (he ▸ hb)
      simp [State.goto, State.store, hcb]
    · rwa [setPrev_some hcb] at hl
    · simp [State.goto, State.store, hab, hc]

end Inv

theorem Pc.settle_congr (p : Pc) {cells cells' : Nat → Option (Cell Gmr)}
    (hclaim : ∀ a, p.claim = some a → cells' a = cells a) (hb : cells' b = cells b) :
    p.settle cells' b = p.settle cells b := by
  cases p with
  | createPrev => simp only [settle, setPrev, hb]
  | destroyPrev a p => simp only [settle, setPrev, hclaim a rfl, hb]
  | _ => exact hb

namespace Inv

theorem aside (h : Inv nproc s) (hi : s.pc i = q) (hq : q.critical = false)
    (hp : p.critical = false) (ha : a ∉ s.addrs) (hother : ∀ j, j ≠ i → (s.pc j).claim ≠ some a)
    (hadmits : Admits s i p) (hkeep : ∀ b, q.claim = some b → b = a)
    (halloc : c = none ∨ p.claim = some a) (hplace : (s.store a c).Place nproc p) :
    Inv nproc ((s.store a c).goto i p) := by
  subst hi
  have hpj : ∀ j, j ≠ i → Function.update s.pc i p j = s.pc j := fun j hj => by simp [hj]
  have hcells : ∀ b, b ≠ a → ((s.store a c).goto i p).cells b = s.cells b := fun b hb => by
    simp [State.goto, State.store, hb]
  have hne : ∀ j, j ≠ i → ∀ b, (s.pc j).claim = some b → b ≠ a := fun j hj b hb he =>
    hother j hj (he ▸ hb)
  have hnot : s.owner ≠ some i := fun ho => by
    rw [(h.mutex i).mp ho] at hq
    cases hq
  refine h.step rfl (fun j => ?_) ?_ h.sizes hadmits (fun j hj => ?_) (fun b hb => ?_)
    (hplace.same rfl rfl fun _ => le_rfl) h.answers
  · by_cases hj : j = i
    · subst hj
      simp [State.goto, State.store, hp, hnot]
    · simpa [State.goto, State.store, hj] using h.mutex j
  · refine h.linked.congr fun b hb => ?_
    have hba : b ≠ a := fun he => ha (he ▸ hb)
    cases ho : s.owner with
    | none => simpa [State.settled, State.goto, State.store, ho] using hcells b hba
    | some j =>
      have hj : j ≠ i := fun he => hnot (he ▸ ho)
      have hsettle := (s.pc j).settle_congr (fun b' hb' => hcells b' (hne j hj b' hb'))
        (hcells b hba)
      simpa [State.settled, State.goto, State.store, ho, hj] using hsettle
  · exact ⟨fun b hb hout => ⟨hcells b (hne j hj b hb), hout⟩, fun b _ hin => hin,
      fun _ => ⟨rfl, fun _ => le_rfl⟩, fun _ => List.prefix_refl _⟩
  · by_cases hba : b = a
    · subst hba
      rcases halloc with rfl | hclaim
      · simp [State.goto, State.store] at hb
      · exact .inr (.inl hclaim)
    · rw [hcells b hba] at hb
      rcases h.owned rfl hb with hin | hclaim | hj
      · exact .inl hin
      · exact absurd (hkeep b hclaim) hba
      · exact .inr (.inr hj)

theorem destroyEpoch (h : Inv nproc s) (hg : Regions world s) (hpc : s.pc i = .destroyEpoch a)
    (ht : s.turn world i = some t) : Inv nproc t := by
  have hp : s.Unlinked a := h.place_at hpc
  obtain ⟨c, hc⟩ := Option.ne_none_iff_exists'.mp hp.1
  obtain ⟨win, hwin⟩ := Option.isSome_iff_exists.mp (hg.created a c hc).1
  simp only [State.turn, hpc, State.deref_some hc, hwin, Option.some.injEq] at ht
  subst ht
  refine h.quiet hpc rfl rfl rfl rfl rfl (.inr fun b => ?_) rfl rfl
    (h.admits hpc ⟨fun _ => id, id, id⟩) (fun _ => id) hp h.answers
  simp only [State.goto, State.setOutstanding, Function.update_apply]
  split
  · exact Nat.zero_le _
  · exact le_rfl

theorem destroyFree (h : Inv nproc s) (hpc : s.pc i = .destroyFree a)
    (ht : s.turn world i = some t) : Inv nproc t := by
  obtain ⟨hc, hout⟩ : s.Unlinked a := h.place_at hpc
  obtain ⟨c, hc⟩ := Option.ne_none_iff_exists'.mp hc
  simp only [State.turn, hpc, State.deref_some hc, Option.some.injEq] at ht
  subst ht
  refine h.aside hpc rfl rfl hout (fun j hj hja => ?_) (h.admits hpc (.idle _))
    (fun b hb => by cases hb; rfl) (.inl rfl) trivial
  exact hj (h.claims j i a hja (by rw [hpc]; rfl))

-- ------------------------------
-- The statements of a walk
-- ------------------------------

theorem walkHead (h : Inv nproc s) (hpc : s.pc i = .walkHead w) (ht : s.turn world i = some t) :
    Inv nproc t := by
  obtain ⟨hp, hseen⟩ := h.place_at hpc
  simp only [State.turn, hpc, Option.some.injEq, h.linked.head] at ht
  subst ht
  refine h.goto hpc rfl rfl (.walk rfl rfl rfl) (Pc.keeps_none rfl) ?_
  cases hl : s.live with
  | nil =>
    have hstart := hp.start
    rw [hl] at hstart
    exact ⟨hp, by rw [hseen]; exact hstart⟩
  | cons x xs =>
    refine ⟨hp, x.2, ?_⟩
    rw [hseen, hl]
    exact ⟨xs, rfl⟩

theorem walkNext (h : Inv nproc s) (hpc : s.pc i = .walkNext w a) (ht : s.turn world i = some t) :
    Inv nproc t := by
  obtain ⟨hp, hlast⟩ := h.place_at hpc
  obtain ⟨x, hx, rfl⟩ := Option.map_eq_some_iff.mp hlast
  obtain ⟨l, hl⟩ : ∃ l, w.seen = l ++ [x] := List.getLast?_eq_some_iff.mp hx
  obtain ⟨r, hr⟩ := hp.seen
  have hlive : s.live = l ++ (x.1, x.2) :: r := by rw [← hr, hl]; simp
  obtain ⟨q, hc⟩ := h.next_eq hlive
  simp only [State.turn, hpc, State.deref_some hc, Option.some.injEq] at ht
  subst ht
  refine h.goto hpc rfl rfl (.walk rfl rfl rfl) (Pc.keeps_none rfl) ?_
  cases r with
  | nil =>
    refine ⟨hp, ?_⟩
    rw [List.append_nil] at hr
    exact hr ▸ hp.start
  | cons y r => exact ⟨hp, y.2, r, by rw [← hr]; simp⟩

theorem answer (hp : s.Passed nproc w) (hstart : w.start <+: w.seen) :
    Answer.Linearizable ⟨w, none, s.live⟩ := by
  refine ⟨w.seen, hstart, hp.seen, ?_, fun _ => rfl⟩
  rw [List.find?_eq_none.mpr fun x hx => by simpa using hp.none x hx]
  rfl

theorem answer_found (hp : s.Passed nproc w) (hm : w.seen ++ [(a, m)] <+: s.live)
    (hstop : w.query.stops m = true) : Answer.Linearizable ⟨w, some a, s.live⟩ := by
  refine ⟨s.live, hp.start, List.prefix_refl _, ?_, nofun⟩
  obtain ⟨r, hr⟩ := hm
  rw [← hr, List.append_assoc, List.find?_append,
    List.find?_eq_none.mpr fun x hx => by simpa using hp.none x hx]
  simp [hstop]

theorem walkTest (h : Inv nproc s) (hg : Regions world s) (hpc : s.pc i = .walkTest w mreg)
    (ht : s.turn world i = some t) : Inv nproc t := by
  have hp := h.place_at hpc
  have hfinish : ∀ found, Answer.Linearizable ⟨w, found, s.live⟩ →
      Inv nproc (s.finish i w found) := fun found hans =>
    h.quiet hpc rfl rfl rfl rfl rfl (.inr fun _ => le_rfl) rfl rfl (h.admits hpc (.idle _))
      (Pc.keeps_none rfl) trivial fun ans hmem => by
        rcases List.mem_append.mp hmem with hmem | hmem
        · exact h.answers ans hmem
        · rw [List.mem_singleton.mp hmem]
          exact hans
  cases mreg with
  | none =>
    simp only [State.turn, hpc, Option.some.injEq] at ht
    subst ht
    exact hfinish none (answer hp.1 hp.2)
  | some a =>
    obtain ⟨hp, m, hm⟩ := hp
    obtain ⟨r, hr⟩ := hm
    have hlive : s.live = w.seen ++ (a, m) :: r := by rw [← hr]; simp
    obtain ⟨q, hc⟩ := h.next_eq hlive
    have hn : m.nslices = nproc := h.sizes (a, m) (by rw [hlive]; simp)
    have htest : w.query.test world m = .ok (w.query.stops m) :=
      Query.test_eq (hg.created a _ hc) (hg.passes i w.query (by rw [hpc]; rfl) a _ hc)
        (hn ▸ hp.proc)
    simp only [State.turn, hpc, State.deref_some hc, htest, Option.some.injEq] at ht
    cases hstop : w.query.stops m with
    | true =>
      simp only [hstop] at ht
      subst ht
      exact hfinish (some a) (answer_found hp ⟨r, hr⟩ hstop)
    | false =>
      simp only [hstop] at ht
      subst ht
      refine h.goto hpc rfl rfl (.walk rfl rfl rfl) (Pc.keeps_none rfl)
        ⟨⟨⟨r, hr⟩, hp.start, fun x hx => ?_, hp.proc⟩, ?_⟩
      · rcases List.mem_append.mp hx with hx | hx
        · exact hp.none x hx
        · rw [List.mem_singleton.mp hx]
          exact hstop
      · exact lastAddr_snoc _ _

-- ------------------------------
-- The statements of an operation with a handle
-- ------------------------------

theorem rmaBegin (h : Inv nproc s) (hpc : s.pc i = .rmaBegin a) (ht : s.turn world i = some t) :
    Inv nproc t := by
  simp only [State.turn, hpc] at ht
  split at ht
  · cases ht
    exact h.goto hpc rfl rfl (.free _ rfl rfl rfl) (Pc.keeps_none rfl)
      ⟨[], s.live, rfl, h.linked.head, by simp⟩
  · cases ht
    exact h.goto hpc rfl rfl (.free _ rfl rfl rfl) (Pc.keeps_none rfl) trivial

theorem rmaFlush (h : Inv nproc s) (hpc : s.pc i = .rmaFlush a mreg)
    (ht : s.turn world i = some t) : Inv nproc t := by
  obtain ⟨l, r, hl, rfl, hzero⟩ := h.place_at hpc
  cases r with
  | nil =>
    simp only [headAddr_nil, State.turn] at hpc ht
    simp only [hpc, Option.some.injEq] at ht
    subst ht
    exact h.quiet hpc rfl rfl rfl rfl rfl (.inl rfl) rfl rfl
      (h.admits hpc (.free _ rfl rfl rfl)) (Pc.keeps_none rfl) trivial h.answers
  | cons x r =>
    obtain ⟨q, hc⟩ := h.next_eq (a := x.1) (m := x.2) hl
    simp only [headAddr_cons, State.turn] at hpc ht
    simp only [hpc, State.deref_some hc, Option.some.injEq] at ht
    subst ht
    refine h.quiet hpc rfl rfl rfl rfl rfl (.inl rfl) rfl rfl
      (h.admits hpc (.free _ rfl rfl rfl)) (Pc.keeps_none rfl)
      ⟨l ++ [x], r, ?_, rfl, fun y hy => ?_⟩ h.answers
    · simpa [State.goto, State.setOutstanding] using hl
    · simp only [State.goto, State.setOutstanding, Function.update_apply]
      rcases List.mem_append.mp hy with hy | hy
      · split
        · rfl
        · exact hzero y hy
      · rw [List.mem_singleton.mp hy, if_pos rfl]

-- ------------------------------
-- Runs
-- ------------------------------

theorem turn (h : Inv nproc s) (hg : Regions world s) (ht : s.turn world i = some t) :
    Inv nproc t := by
  have hstep := ht
  cases hpc : s.pc i with
  | idle | aborted =>
    simp only [State.turn, hpc] at ht
    cases ht
  | createLock a =>
    simp only [State.turn, hpc] at ht
    have hp : s.Fresh nproc a := h.place_at hpc
    exact h.lock hpc ht rfl rfl ⟨fun _ => id, id, id⟩ (fun _ => id) hp
  | createHead a => exact h.createHead hpc hstep
  | createFirst a => exact h.createFirst hpc hstep
  | createWalk a parent => exact h.createWalk hpc hstep
  | createNext a parent => exact h.createNext hpc hstep
  | createPrev a parent => exact h.createPrev hpc hstep
  | destroyLock a =>
    simp only [State.turn, hpc] at ht
    have hp : a ∈ s.addrs := h.place_at hpc
    exact h.lock hpc ht rfl rfl ⟨fun _ => id, id, id⟩ (fun _ => id) hp
  | destroyTest a => exact h.destroyTest hpc hstep
  | destroyHead a => exact h.destroyHead hpc hstep
  | destroyNext a => exact h.destroyNext hpc hstep
  | destroyPrev a p => exact h.destroyPrev hpc hstep
  | destroyUnlock a =>
    simp only [State.turn, hpc, Option.some.injEq] at ht
    have hp : s.Unlinked a := h.place_at hpc
    exact ht ▸ h.unlock hpc rfl rfl rfl ⟨fun _ => id, id, id⟩ (fun _ => id) hp
  | destroyEpoch a => exact h.destroyEpoch hg hpc hstep
  | destroyFree a => exact h.destroyFree hpc hstep
  | walkHead w => exact h.walkHead hpc hstep
  | walkTest w mreg => exact h.walkTest hg hpc hstep
  | walkNext w a => exact h.walkNext hpc hstep
  | rmaLock a =>
    simp only [State.turn, hpc] at ht
    exact h.lock hpc ht rfl rfl (.free _ rfl rfl rfl) (Pc.keeps_none rfl) trivial
  | rmaBegin a => exact h.rmaBegin hpc hstep
  | rmaFlush a mreg => exact h.rmaFlush hpc hstep
  | rmaIssue a =>
    simp only [State.turn, hpc, Option.some.injEq] at ht
    exact ht ▸ h.quiet hpc rfl rfl rfl rfl rfl (.inl rfl) rfl rfl
      (h.admits hpc (.free _ rfl rfl rfl)) (Pc.keeps_none rfl) trivial h.answers
  | rmaEnd =>
    simp only [State.turn, hpc, Option.some.injEq] at ht
    exact ht ▸ h.quiet hpc rfl rfl rfl rfl rfl (.inl rfl) rfl rfl
      (h.admits hpc (.unlock _)) (Pc.keeps_none rfl) trivial h.answers
  | unlock =>
    simp only [State.turn, hpc, Option.some.injEq] at ht
    exact ht ▸ h.unlock hpc rfl rfl rfl (.idle _) (Pc.keeps_none rfl) trivial

theorem enter (h : Inv world.size s) (hpc : s.pc i = .idle) (hok : Contract world s (.call i c))
    (ht : s.enter world i c = some t) : Inv world.size t := by
  cases c with
  | create a mreg =>
    simp only [State.enter] at ht
    split at ht
    · rename_i hnone
      cases ht
      have hout : a ∉ s.addrs := fun ha => by
        obtain ⟨_, _, _, _, -, hc⟩ := h.cell ha
        rw [hnone] at hc
        cases hc
      have hother : ∀ j, (s.pc j).claim ≠ some a := fun j hj => h.claimed hj hnone
      refine h.aside hpc rfl rfl hout (fun j _ => hother j) ⟨?_, nofun, nofun⟩ nofun (.inr rfl)
        ⟨⟨{ mreg with nslices := world.size }, by simp [State.store], rfl⟩, hout⟩
      rintro b hb j -
      cases hb
      exact hother j
    · cases ht
  | destroy a =>
    simp only [State.enter, Option.some.injEq] at ht
    obtain ⟨ha, hother, hwalk⟩ := hok
    refine ht ▸ h.quiet hpc rfl rfl rfl rfl rfl (.inr fun _ => le_rfl) rfl rfl
      ⟨?_, nofun, fun _ j _ => hwalk j⟩ nofun ha h.answers
    rintro b hb j -
    cases hb
    exact hother j
  | walk query =>
    simp only [State.enter, Option.some.injEq] at ht
    obtain ⟨hproc, hno, -⟩ := hok
    exact ht ▸ h.quiet hpc rfl rfl rfl rfl rfl (.inr fun _ => le_rfl) rfl rfl
      ⟨nofun, fun _ j _ => hno j, nofun⟩ nofun
      ⟨⟨List.nil_prefix, List.prefix_refl _, by simp, hproc⟩, rfl⟩ h.answers
  | rma a =>
    simp only [State.enter, Option.some.injEq] at ht
    exact ht ▸ h.goto hpc rfl rfl ⟨nofun, nofun, nofun⟩ nofun trivial

theorem next (h : Inv world.size s) (hg : Regions world s) (hok : Contract world s x)
    (ht : s.next world x = some t) : Inv world.size t := by
  cases x with
  | call i c =>
    simp only [State.next] at ht
    split at ht
    · rename_i hpc
      exact h.enter hpc hok ht
    · cases ht
  | step i => exact h.turn hg ht
  | complete a =>
    simp only [State.next, Option.some.injEq] at ht
    subst ht
    refine ⟨h.mutex, h.linked, h.claims, h.allocated, h.apart, h.sizes, fun i => ?_, h.answers⟩
    refine (h.place i).same rfl rfl fun b => ?_
    simp only [State.setOutstanding, Function.update_apply]
    split
    · rename_i hb
      subst hb
      exact Nat.sub_le _ _
    · exact le_rfl

theorem init : Inv nproc (State.empty : State n) where
  mutex _ := ⟨nofun, nofun⟩
  linked := .empty
  claims := nofun
  allocated := nofun
  apart := nofun
  sizes := nofun
  place _ := trivial
  answers := nofun

theorem mem_live (h : Inv nproc s) (ha : a ∈ s.addrs) (hc : s.cells a = some c) :
    (a, c.val) ∈ s.live := by
  obtain ⟨l, m, r, q, hl, hcell⟩ := h.cell ha
  cases hcell.symm.trans hc
  simp [hl]

end Inv

namespace Regions

theorem create (hg : Regions world s) (hok : Contract world s (.call i (.create a mreg)))
    (hcells : t.cells = Function.update s.cells a
      (some ⟨{ mreg with nslices := world.size }, none, none⟩))
    (hpc : t.pc = Function.update s.pc i (.createLock a)) : Regions world t := by
  have hcell : ∀ b c, t.cells b = some c → s.cells b = some c ∨
      c.val = { mreg with nslices := world.size } := by
    intro b c hc
    rw [hcells, Function.update_apply] at hc
    split at hc
    · cases hc
      exact .inr rfl
    · exact .inl hc
  refine ⟨fun b c hc => ?_, fun j query hq b c hc => ?_⟩
  · rcases hcell b c hc with hc | hval
    · exact hg.created b c hc
    · rw [hval]
      exact hok.1
  · have hj := query_of_update hpc nofun j query hq
    rcases hcell b c hc with hc | hval
    · exact hg.passes j query hj b c hc
    · rw [hval]
      cases query with
      | flush proc => exact hok.2 j _ hj
      | lookup | flushall | sync => trivial

theorem walk (hg : Regions world s) (h : Inv world.size s)
    (hok : Contract world s (.call i (.walk query))) (hcells : t.cells = s.cells)
    (hpc : t.pc = Function.update s.pc i (.walkHead ⟨query, l, []⟩)) : Regions world t := by
  obtain ⟨-, -, hlive, hclaimed⟩ := hok
  refine ⟨fun b c hc => hg.created b c (hcells ▸ hc), fun j query' hq b c hc => ?_⟩
  rw [hcells] at hc
  rw [hpc, Function.update_apply] at hq
  split at hq
  · cases hq
    rcases h.allocated b (by simp [hc]) with hb | ⟨k, hk⟩
    · exact hlive _ (h.mem_live hb hc)
    · exact hclaimed k b hk c hc
  · exact hg.passes j query' hq b c hc

theorem next (hg : Regions world s) (h : Inv world.size s) (hok : Contract world s x)
    (ht : s.next world x = some t) : Regions world t := by
  cases x with
  | step i => exact hg.moves (turn_moves ht)
  | complete a =>
    cases ht
    exact ⟨hg.created, hg.passes⟩
  | call i c =>
    simp only [State.next] at ht
    split at ht
    · cases c with
      | create a mreg =>
        simp only [State.enter] at ht
        split at ht <;> cases ht
        exact hg.create hok rfl rfl
      | walk query =>
        cases ht
        exact hg.walk h hok rfl rfl
      | destroy a | rma a =>
        cases ht
        exact hg.moves ⟨vals_of_eq rfl, query_of_update rfl nofun, .inl rfl⟩
    · cases ht

end Regions

/-- The runs in which the callers keep their part of the contract. -/
abbrev Runs (world : World) (n : Nat) : State n → Prop :=
  ((system world n).restrict (Contract world)).Reachable

theorem safe_of_runs (hr : Runs world n s) : Inv world.size s ∧ Regions world s := by
  refine hr.invariant (I := fun s => Inv world.size s ∧ Regions world s)
    (fun _ hi => hi ▸ ⟨.init, .init⟩) fun s x t _ h hn => ?_
  obtain ⟨hok, ht⟩ := System.restrict_next.mp hn
  exact ⟨h.1.next h.2 hok ht, h.2.next h.1 hok ht⟩

theorem inv_of_runs (hr : Runs world n s) : Inv world.size s := (safe_of_runs hr).1

/-- No thread follows a dangling pointer or fails an assertion, the statements under
the mutex exclude each other, whenever the mutex is free the pointers in both
directions are those of the list, and every allocated region is on the list or belongs
to a call in progress. -/
theorem threads_keep_list (hr : Runs world n s) :
    (∀ i msg, s.pc i ≠ .aborted msg) ∧
    (∀ i j, (s.pc i).critical = true → (s.pc j).critical = true → i = j) ∧
    (s.owner = none → Linked s.cells s.head s.live) ∧
    ∀ a, s.cells a ≠ none → a ∈ s.addrs ∨ ∃ i, (s.pc i).claim = some a := by
  have h := inv_of_runs hr
  refine ⟨fun i msg hpc => h.place_at hpc, fun i j hi hj => ?_, fun hfree => ?_, h.allocated⟩
  · by_contra hne
    rw [h.alone hj hne] at hi
    cases hi
  · have hl := h.linked
    rwa [State.settled, hfree] at hl

def octet (base : Int) : Gmr where
  window := some ⟨0, pairWorld.comm, [base, base]⟩
  group := ⟨some pairWorld.comm, none, 0, 2, none, none⟩
  slices := [⟨base, 8⟩, ⟨base, 8⟩]
  nslices := 2
  unified := true

/-- Two threads create a region each. The first one looks up an address in the region of
the other while that region is being linked. -/
def lookupDuringCreate (i j : Fin 2) : List (Act 2) :=
  [.call i (.create 1 (octet 64)), .call j (.create 2 (octet 128)),
    .step i, .step i, .step i, .step i, .step j, .step j,
    .call i (.walk (.lookup 130 0)), .step i, .step i,
    .step j, .step j, .step i, .step i, .step j, .step j]

/-- After that one region is destroyed, and process 1 is fenced at the other. -/
theorem threads_keep_list_pair :
    ∃ s, Runs pairWorld 2 s ∧ s.addrs = [2] ∧ s.cells 1 = none ∧
      s.answers.map (·.found) = [some 2, none] ∧ Linked s.cells s.head s.live := by
  have hrun : ∃ s, Runs pairWorld 2 s ∧ s.addrs = [2] ∧ s.cells 1 = none ∧
      s.answers.map (·.found) = [some 2, none] ∧ s.owner = none :=
    ⟨_, .runOk (.init rfl)
      (lookupDuringCreate 0 1 ++ .call 0 (.destroy 1) :: List.replicate 7 (.step 0) ++
        .call 1 (.walk (.flush 1)) :: List.replicate 4 (.step 1)) rfl, rfl, rfl, rfl, rfl⟩
  obtain ⟨s, hr, hs, hc, hans, hfree⟩ := hrun
  exact ⟨s, hr, hs, hc, hans, (threads_keep_list hr).2.2.1 hfree⟩

theorem enter_live (ht : s.enter world i c = some t) : t.live = s.live := by
  cases c with
  | create a mreg =>
    simp only [State.enter] at ht
    split at ht <;> cases ht
    rfl
  | destroy a | walk query | rma a =>
    cases ht
    rfl

/-- The list changes by one region at a time, so that each list between the one at a call
and the one at its return is the list of some moment. -/
theorem live_changes_by_one (hr : Runs world n s) (ht : s.next world x = some t) :
    t.live = s.live ∨ (∃ y, t.live = s.live ++ [y]) ∨
      ∃ l y r, s.live = l ++ y :: r ∧ t.live = l ++ r := by
  cases x with
  | complete a =>
    cases ht
    exact .inl rfl
  | call i c =>
    simp only [State.next] at ht
    split at ht
    · exact .inl (enter_live ht)
    · cases ht
  | step i =>
    have h := inv_of_runs hr
    rcases (turn_moves ht).live with hsame | hlink | ⟨a, hdrop⟩
    · exact .inl hsame
    · exact .inr (.inl hlink)
    · by_cases ha : a ∈ s.addrs
      · obtain ⟨l, m, r, -, hl, -⟩ := h.cell ha
        refine .inr (.inr ⟨l, (a, m), r, hl, ?_⟩)
        rw [hdrop, hl, Inv.filter_addr (hl ▸ h.linked.nodup)]
      · left
        rw [hdrop, List.filter_eq_self]
        intro y hy
        exact decide_eq_true fun hya => ha (hya ▸ List.mem_map_of_mem hy)

/-- A lookup without the mutex finds what a search of the list at some moment between
its call and its return finds, and a loop over all regions visits exactly the ones that
were on the list at such a moment. -/
theorem walks_linearizable (hr : Runs world n s) (hans : ans ∈ s.answers) :
    ∃ xs, ans.start <+: xs ∧ xs <+: ans.stop ∧
      ans.found = (xs.find? fun x => ans.query.stops x.2).map Prod.fst ∧
      (ans.found = none → ans.seen = xs) :=
  (inv_of_runs hr).answers ans hans

/-- The lookup finds a region that was not on the list at the call. -/
theorem walks_linearizable_pair :
    ∃ s ans, Runs pairWorld 2 s ∧ ans ∈ s.answers ∧ ans.start.map Prod.fst = [1] ∧
      ans.found = some 2 ∧ ∃ xs, ans.start <+: xs ∧ xs <+: ans.stop ∧
        ans.found = (xs.find? fun x => ans.query.stops x.2).map Prod.fst ∧
        (ans.found = none → ans.seen = xs) := by
  have hrun : ∃ s ans, Runs pairWorld 2 s ∧ s.answers = [ans] ∧ ans.start.map Prod.fst = [1] ∧
      ans.found = some 2 :=
    ⟨_, _, .runOk (.init rfl) (lookupDuringCreate 0 1) rfl, rfl, rfl, rfl⟩
  obtain ⟨s, ans, hr, hans, hstart, hfound⟩ := hrun
  have hmem : ans ∈ s.answers := by simp [hans]
  exact ⟨s, ans, hr, hmem, hstart, hfound, walks_linearizable hr hmem⟩

/-- The contract is needed: a thread that has a region in hand when another one destroys
it follows a dangling pointer. -/
theorem destroy_during_walk :
    ∃ s : State 2, (system pairWorld 2).Reachable s ∧ s.pc 1 = .aborted "dangling pointer" := by
  have hrun : ∃ s, (system pairWorld 2).run .empty
      ([.call 0 (.create 1 (octet 64)), .step 0, .step 0, .step 0, .step 0,
        .call 1 (.walk .flushall), .step 1, .step 1, .call 0 (.destroy 1)] ++
      List.replicate 7 (.step 0) ++ [.step 1]) = some s ∧
      s.pc 1 = .aborted "dangling pointer" := ⟨_, rfl, rfl⟩
  obtain ⟨s, hr, hs⟩ := hrun
  exact ⟨s, (System.Reachable.init rfl).run hr, hs⟩

end ArmciMpi.ListThreads
