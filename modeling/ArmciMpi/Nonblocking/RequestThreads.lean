import ArmciMpi.Runtime.ListSafety

/-!
# Requests issued by several threads

The Open MPI 5 build at `MPI_THREAD_MULTIPLE`. An operation with a handle holds
`gmr_list_mutex` from `gmr_request_rma_begin` to `gmr_request_rma_end`, so the flush
of all windows on the list and the counter are one critical section. A region that
`gmr_destroy` has unlinked is out of reach of such a flush until
`MPI_Win_unlock_all` ends its epoch.

`request_limit_threads` is the bound that holds in every run: the limit, and once
more the limit for each thread that is between the two in `gmr_destroy`. The requests
of `PARMCI_Rmw`, which is not counted and waits at once, are not part of the model.
-/

namespace ArmciMpi.ListThreads

open Lib Nonblocking

variable {world : World} {nproc n : Nat} {s t : State n} {i j : Fin n}

/-- The region that is off the list and whose epoch is still open. -/
def Pc.unreached : Pc → Option Nat
  | .destroyPrev a _ | .destroyUnlock a | .destroyEpoch a => some a
  | _ => none

def Pc.admitted : Pc → Bool
  | .rmaIssue _ | .rmaEnd => true
  | _ => false

def Pc.uncounted : Pc → Bool
  | .rmaEnd => true
  | _ => false

def State.listed (s : State n) : Nat := (s.live.map fun x => s.outstanding x.1).sum

structure Counted (s : State n) : Prop where
  issued : s.issued ≤ requestRmaLimit
  room : ∀ i, (s.pc i).admitted = true → s.issued < requestRmaLimit
  total : s.listed ≤ s.issued ∨ s.listed ≤ s.issued + 1 ∧ ∃ i, (s.pc i).uncounted = true
  unreached : ∀ a, a ∉ s.addrs → s.outstanding a ≠ 0 → ∃ i, (s.pc i).unreached = some a
  each : ∀ a, s.outstanding a ≤ requestRmaLimit

theorem Pc.claim_of_unreached {p : Pc} (h : p.unreached = some a) : p.claim = some a := by
  cases p <;> first | exact h | cases h

theorem Pc.critical_of_uncounted {p : Pc} (h : p.uncounted = true) : p.critical = true := by
  cases p <;> first | rfl | cases h

-- ------------------------------
-- What a statement does to the counts
-- ------------------------------

/-- What the statement `q` of a thread that goes on to `p` does to the list, to the
requests and to the counter. -/
inductive Effect (s : State n) (q p : Pc) (t : State n) : Prop
  | keep (hlive : t.live = s.live) (hout : t.outstanding = s.outstanding)
      (hissued : t.issued = s.issued) (hun : p.unreached = q.unreached)
      (hroom : p.admitted = true → s.issued < requestRmaLimit)
      (hend : q.uncounted = false)
  | link (hclaim : q.claim = some a) (ha : a ∉ s.addrs)
      (hlive : t.live = s.live ++ [(a, m)]) (hout : t.outstanding = s.outstanding)
      (hissued : t.issued = s.issued) (hun : q.unreached = none)
      (hp : p.unreached = none) (hroom : p.admitted = false)
      (hend : q.uncounted = false)
  | unlink (hlive : t.live = s.live.filter (·.1 ≠ a)) (hout : t.outstanding = s.outstanding)
      (hissued : t.issued = s.issued) (hun : q.unreached = none)
      (hp : p.unreached = some a) (hroom : p.admitted = false)
      (hend : q.uncounted = false)
  | close (hlive : t.live = s.live) (hout : t.outstanding = Function.update s.outstanding a 0)
      (hissued : t.issued = s.issued) (hun : q.unreached = some a)
      (hroom : p.admitted = false) (hend : q.uncounted = false)
  | flush (hlive : t.live = s.live) (hout : t.outstanding = Function.update s.outstanding a 0)
      (hissued : t.issued = s.issued) (hun : q.unreached = none)
      (hroom : p.admitted = false) (hend : q.uncounted = false)
  | reset (hlive : t.live = s.live) (hout : t.outstanding = s.outstanding)
      (hissued : t.issued = 0) (hzero : ∀ x ∈ s.live, s.outstanding x.1 = 0)
      (hun : q.unreached = none)
  | issue (hlive : t.live = s.live) (ha : a ∈ s.addrs)
      (hout : t.outstanding = Function.update s.outstanding a (s.outstanding a + 1))
      (hissued : t.issued = s.issued) (hpc : q = .rmaIssue a) (hp : p = .rmaEnd)
  | count (hlive : t.live = s.live) (hout : t.outstanding = s.outstanding)
      (hissued : t.issued = (s.issued + 1) % 2 ^ 32) (hpc : q = .rmaEnd) (hp : p = .unlock)

theorem Effect.pass {q p : Pc} (hlive : t.live = s.live) (hout : t.outstanding = s.outstanding)
    (hissued : t.issued = s.issued) (hun : p.unreached = q.unreached)
    (hroom : p.admitted = false) (hend : q.uncounted = false) : Effect s q p t :=
  .keep hlive hout hissued hun (fun h => by simp [hroom] at h) hend

theorem State.deref_cases (ht : s.deref i a k = t) (hno : ∀ msg, t.pc i ≠ .aborted msg) :
    ∃ c, k c = t := by
  unfold State.deref at ht
  split at ht
  · exact ⟨_, ht⟩
  · exact absurd (by simp [← ht, State.goto]) (hno "dangling pointer")

theorem turn_effect (h : Inv nproc s) (hg : Regions world s) (hok : Contract world s (.step i))
    (ht : s.turn world i = some t) :
    ∃ p, t.pc = Function.update s.pc i p ∧ Effect s (s.pc i) p t := by
  have hno : ∀ msg, t.pc i ≠ .aborted msg := fun msg hpc => (h.turn hg ht).place_at hpc
  cases hpc : s.pc i with
  | idle | aborted =>
    simp only [State.turn, hpc] at ht
    cases ht
  | createLock a | destroyLock a | rmaLock a =>
    simp only [State.turn, hpc, State.pthreadLock] at ht
    split at ht <;> cases ht
    exact ⟨_, rfl, .pass rfl rfl rfl rfl rfl rfl⟩
  | createHead a =>
    simp only [State.turn, hpc] at ht
    split at ht <;> cases ht <;> exact ⟨_, rfl, .pass rfl rfl rfl rfl rfl rfl⟩
  | createFirst a =>
    obtain ⟨⟨-, hout⟩, -⟩ := h.place_at hpc
    simp only [State.turn, hpc, Option.some.injEq] at ht
    obtain ⟨c, rfl⟩ := State.deref_cases ht hno
    exact ⟨_, rfl, .link rfl hout rfl rfl rfl rfl rfl rfl rfl⟩
  | createWalk a parent =>
    simp only [State.turn, hpc, Option.some.injEq] at ht
    obtain ⟨c, rfl⟩ := State.deref_cases ht hno
    split <;> exact ⟨_, rfl, .pass rfl rfl rfl rfl rfl rfl⟩
  | createNext a parent =>
    obtain ⟨⟨-, hout⟩, -⟩ := h.place_at hpc
    simp only [State.turn, hpc, Option.some.injEq] at ht
    obtain ⟨c, ht⟩ := State.deref_cases ht hno
    obtain ⟨d, rfl⟩ := State.deref_cases ht hno
    exact ⟨_, rfl, .link rfl hout rfl rfl rfl rfl rfl rfl rfl⟩
  | createPrev a parent =>
    simp only [State.turn, hpc, Option.some.injEq] at ht
    obtain ⟨c, rfl⟩ := State.deref_cases ht hno
    exact ⟨_, rfl, .pass rfl rfl rfl rfl rfl rfl⟩
  | destroyTest a =>
    simp only [State.turn, hpc, Option.some.injEq] at ht
    obtain ⟨c, rfl⟩ := State.deref_cases ht hno
    split <;> exact ⟨_, rfl, .pass rfl rfl rfl rfl rfl rfl⟩
  | destroyHead a =>
    simp only [State.turn, hpc] at ht
    split at ht
    · obtain ⟨c, rfl⟩ := State.deref_cases (Option.some.inj ht) hno
      exact ⟨_, rfl, .unlink rfl rfl rfl rfl rfl rfl rfl⟩
    · cases ht
      exact absurd (by simp [State.goto]) (hno "gmr_list == mreg")
  | destroyNext a =>
    simp only [State.turn, hpc, Option.some.injEq] at ht
    obtain ⟨c, ht⟩ := State.deref_cases ht hno
    split at ht
    · exact absurd (by simp [← ht, State.goto]) (hno "dangling pointer")
    · obtain ⟨d, rfl⟩ := State.deref_cases ht hno
      exact ⟨_, rfl, .unlink rfl rfl rfl rfl rfl rfl rfl⟩
  | destroyPrev a p =>
    simp only [State.turn, hpc, Option.some.injEq] at ht
    obtain ⟨c, ht⟩ := State.deref_cases ht hno
    split at ht
    · subst ht
      exact ⟨_, rfl, .pass rfl rfl rfl rfl rfl rfl⟩
    · obtain ⟨d, rfl⟩ := State.deref_cases ht hno
      exact ⟨_, rfl, .pass rfl rfl rfl rfl rfl rfl⟩
  | destroyUnlock a | unlock =>
    simp only [State.turn, hpc, Option.some.injEq] at ht
    exact ht ▸ ⟨_, rfl, .pass rfl rfl rfl rfl rfl rfl⟩
  | destroyEpoch a =>
    simp only [State.turn, hpc, Option.some.injEq] at ht
    obtain ⟨c, rfl⟩ := State.deref_cases ht hno
    split
    · rename_i hwin
      rw [hwin] at hno
      exact absurd (by simp [State.goto]) (hno nullWindow)
    · exact ⟨_, rfl, .close rfl rfl rfl rfl rfl rfl⟩
  | destroyFree a =>
    simp only [State.turn, hpc, Option.some.injEq] at ht
    obtain ⟨c, rfl⟩ := State.deref_cases ht hno
    exact ⟨_, rfl, .pass rfl rfl rfl rfl rfl rfl⟩
  | walkHead w =>
    simp only [State.turn, hpc, Option.some.injEq] at ht
    exact ht ▸ ⟨_, rfl, .pass rfl rfl rfl rfl rfl rfl⟩
  | walkTest w mreg =>
    cases mreg with
    | none =>
      simp only [State.turn, hpc, Option.some.injEq] at ht
      exact ht ▸ ⟨_, rfl, .pass rfl rfl rfl rfl rfl rfl⟩
    | some a =>
      simp only [State.turn, hpc, Option.some.injEq] at ht
      obtain ⟨c, rfl⟩ := State.deref_cases ht hno
      split <;> exact ⟨_, rfl, .pass rfl rfl rfl rfl rfl rfl⟩
  | walkNext w a =>
    simp only [State.turn, hpc, Option.some.injEq] at ht
    obtain ⟨c, rfl⟩ := State.deref_cases ht hno
    exact ⟨_, rfl, .pass rfl rfl rfl rfl rfl rfl⟩
  | rmaBegin a =>
    simp only [State.turn, hpc] at ht
    split at ht
    · cases ht
      exact ⟨_, rfl, .pass rfl rfl rfl rfl rfl rfl⟩
    · rename_i hlt
      cases ht
      exact ⟨_, rfl, .keep rfl rfl rfl rfl (fun _ => Nat.lt_of_not_le hlt) rfl⟩
  | rmaFlush a mreg =>
    cases mreg with
    | none =>
      obtain ⟨l, r, hl, hr, hzero⟩ := h.place_at hpc
      simp only [State.turn, hpc, Option.some.injEq] at ht
      subst ht
      refine ⟨_, rfl, .reset rfl rfl rfl ?_ rfl⟩
      cases r with
      | nil => rwa [hl, List.append_nil]
      | cons x r => cases hr
    | some b =>
      simp only [State.turn, hpc, Option.some.injEq] at ht
      obtain ⟨c, rfl⟩ := State.deref_cases ht hno
      exact ⟨_, rfl, .flush rfl rfl rfl rfl rfl rfl⟩
  | rmaIssue a =>
    have ha : a ∈ s.addrs := hok a (by rw [hpc]; rfl)
    simp only [State.turn, hpc, Option.some.injEq] at ht
    exact ht ▸ ⟨_, rfl, .issue rfl ha rfl rfl rfl rfl⟩
  | rmaEnd =>
    simp only [State.turn, hpc, Option.some.injEq] at ht
    exact ht ▸ ⟨_, rfl, .count rfl rfl rfl rfl rfl⟩

-- ------------------------------
-- The counts
-- ------------------------------

theorem State.outstanding_le_listed (ha : a ∈ s.addrs) : s.outstanding a ≤ s.listed := by
  obtain ⟨x, hx, rfl⟩ := List.mem_map.mp ha
  exact List.le_sum_of_mem (List.mem_map_of_mem hx)

theorem State.listed_le (hlive : t.live = s.live) (hout : ∀ b, t.outstanding b ≤ s.outstanding b) :
    t.listed ≤ s.listed := by
  rw [State.listed, hlive]
  exact List.sum_le_sum fun x _ => hout x.1

theorem listed_issue {f : Nat → Nat} {xs : List (Nat × Gmr)} (hnd : (xs.map Prod.fst).Nodup) :
    (xs.map fun x => Function.update f a (f a + 1) x.1).sum ≤ (xs.map fun x => f x.1).sum + 1 := by
  induction xs with
  | nil => simp
  | cons x xs ih =>
    rw [List.map_cons, List.nodup_cons] at hnd
    rw [List.map_cons, List.map_cons, List.sum_cons, List.sum_cons]
    by_cases hx : x.1 = a
    · have hrest : ∀ y ∈ xs, Function.update f a (f a + 1) y.1 = f y.1 := fun y hy => by
        have hya : y.1 ≠ a := fun he => hnd.1 (hx ▸ he ▸ List.mem_map_of_mem hy)
        simp [hya]
      rw [List.map_congr_left hrest, hx, Function.update_self]
      omega
    · have := ih hnd.2
      rw [Function.update_of_ne hx]
      omega

theorem update_zero_le (f : Nat → Nat) (a b : Nat) : Function.update f a 0 b ≤ f b := by
  rw [Function.update_apply]
  split
  · exact Nat.zero_le _
  · exact le_rfl

namespace Counted

theorem listed_le (hc : Counted s) : s.listed ≤ requestRmaLimit := by
  rcases hc.total with htotal | ⟨htotal, i, hi⟩
  · exact htotal.trans hc.issued
  · have hlt : s.issued < requestRmaLimit := by
      refine hc.room i ?_
      cases hp : s.pc i <;> rw [hp] at hi <;> first | rfl | cases hi
    omega

theorem shrink (hc : Counted s) (hlive : t.live = s.live)
    (hout : ∀ b, t.outstanding b ≤ s.outstanding b) (hissued : t.issued = s.issued)
    (hpc : t.pc = Function.update s.pc i p) (hend : (s.pc i).uncounted = false)
    (hroom : p.admitted = true → s.issued < requestRmaLimit)
    (hun : ∀ a, t.outstanding a ≠ 0 → (s.pc i).unreached = some a → p.unreached = some a) :
    Counted t := by
  have hpi : t.pc i = p := by simp [hpc]
  have hpj : ∀ j, j ≠ i → t.pc j = s.pc j := fun j hj => by simp [hpc, hj]
  refine ⟨hissued ▸ hc.issued, fun j hj => ?_, ?_, fun a ha hne => ?_,
    fun a => (hout a).trans (hc.each a)⟩
  · rw [hissued]
    by_cases hji : j = i
    · rw [hji, hpi] at hj
      exact hroom hj
    · rw [hpj j hji] at hj
      exact hc.room j hj
  · have hle := State.listed_le hlive hout
    rw [hissued]
    refine hc.total.imp hle.trans fun ⟨htotal, j, hj⟩ => ⟨hle.trans htotal, j, ?_⟩
    have hji : j ≠ i := fun he => by
      rw [he, hend] at hj
      cases hj
    rwa [hpj j hji]
  · rw [State.addrs, hlive] at ha
    obtain ⟨j, hj⟩ := hc.unreached a ha fun hz => hne (Nat.le_zero.mp (hz ▸ hout a))
    by_cases hji : j = i
    · rw [hji] at hj
      exact ⟨i, hpi.symm ▸ hun a hne hj⟩
    · exact ⟨j, by rwa [hpj j hji]⟩

/-- A statement that leaves the requests and the counter alone and moves regions to the
list or off it. -/
theorem relist (hc : Counted s) (hout : t.outstanding = s.outstanding)
    (hissued : t.issued = s.issued) (hpc : t.pc = Function.update s.pc i p)
    (hend : (s.pc i).uncounted = false) (hroom : p.admitted = false)
    (hle : t.listed ≤ s.listed)
    (hun : ∀ a, a ∉ t.addrs → s.outstanding a ≠ 0 → p.unreached = some a ∨
      ∃ j, j ≠ i ∧ (s.pc j).unreached = some a) : Counted t := by
  have hpi : t.pc i = p := by simp [hpc]
  have hpj : ∀ j, j ≠ i → t.pc j = s.pc j := fun j hj => by simp [hpc, hj]
  refine ⟨hissued ▸ hc.issued, fun j hj => ?_, ?_, fun a ha hne => ?_, hout ▸ hc.each⟩
  · rw [hissued]
    by_cases hji : j = i
    · rw [hji, hpi, hroom] at hj
      cases hj
    · rw [hpj j hji] at hj
      exact hc.room j hj
  · rw [hissued]
    refine hc.total.imp hle.trans fun ⟨htotal, j, hj⟩ => ⟨hle.trans htotal, j, ?_⟩
    have hji : j ≠ i := fun he => by
      rw [he, hend] at hj
      cases hj
    rwa [hpj j hji]
  · rw [hout] at hne
    rcases hun a ha hne with hp | ⟨j, hj, hp⟩
    · exact ⟨i, hpi.symm ▸ hp⟩
    · exact ⟨j, by rwa [hpj j hj]⟩

theorem others (hc : Counted s) (hun : (s.pc i).unreached = none) (ha : a ∉ s.addrs)
    (hne : s.outstanding a ≠ 0) : ∃ j, j ≠ i ∧ (s.pc j).unreached = some a := by
  obtain ⟨j, hj⟩ := hc.unreached a ha hne
  refine ⟨j, fun he => ?_, hj⟩
  rw [he, hun] at hj
  cases hj

theorem total_alone (hc : Counted s) (h : Inv nproc s) (hi : (s.pc i).critical = true)
    (hend : (s.pc i).uncounted = false) : s.listed ≤ s.issued := by
  refine hc.total.resolve_right fun ⟨_, j, hj⟩ => ?_
  have hji : j ≠ i := fun he => by
    rw [he, hend] at hj
    cases hj
  have hcrit := Pc.critical_of_uncounted hj
  rw [h.alone hi hji] at hcrit
  cases hcrit

theorem turn (hc : Counted s) (h : Inv nproc s) (hpc : t.pc = Function.update s.pc i p)
    (he : Effect s (s.pc i) p t) : Counted t := by
  have hpi : t.pc i = p := by simp [hpc]
  have hpj : ∀ j, j ≠ i → t.pc j = s.pc j := fun j hj => by simp [hpc, hj]
  cases he with
  | keep hlive hout hissued hun hroom hend =>
    exact hc.shrink hlive (fun b => by rw [hout]) hissued hpc hend hroom
      fun a _ ha => hun.trans ha
  | @link a m hclaim ha hlive hout hissued hun hp hroom hend =>
    -- a region that is not yet linked has no requests
    have hzero : s.outstanding a = 0 := by
      by_contra hne
      obtain ⟨j, hji, hj⟩ := hc.others hun ha hne
      exact hji (h.claims j i a (Pc.claim_of_unreached hj) hclaim)
    refine hc.relist hout hissued hpc hend hroom ?_ fun b hb hne => .inr (hc.others hun ?_ hne)
    · simp [State.listed, hlive, hout, hzero]
    · simp only [State.addrs, hlive, List.map_append, List.mem_append, not_or] at hb
      exact hb.1
  | @unlink a hlive hout hissued hun hp hroom hend =>
    refine hc.relist hout hissued hpc hend hroom ?_ fun b hb hne => ?_
    · rw [State.listed, State.listed, hlive, hout]
      exact (List.filter_sublist.map _).sum_le_sum fun _ _ => Nat.zero_le _
    · by_cases hba : b = a
      · exact .inl (hba ▸ hp)
      · refine .inr (hc.others hun (fun hin => hb ?_) hne)
        obtain ⟨x, hx, rfl⟩ := List.mem_map.mp hin
        rw [State.addrs, hlive]
        exact List.mem_map_of_mem (List.mem_filter.mpr ⟨hx, by simpa using hba⟩)
  | close hlive hout hissued hun hroom hend =>
    refine hc.shrink hlive (fun b => ?_) hissued hpc hend (by simp [hroom]) fun b hne hb => ?_
    · rw [hout]
      exact update_zero_le _ _ _
    · rw [hun] at hb
      cases hb
      simp [hout] at hne
  | flush hlive hout hissued hun hroom hend =>
    refine hc.shrink hlive (fun b => ?_) hissued hpc hend (by simp [hroom]) fun b _ hb => ?_
    · rw [hout]
      exact update_zero_le _ _ _
    · rw [hun] at hb
      cases hb
  | reset hlive hout hissued hzero hun =>
    have hlisted : t.listed = 0 := by
      rw [State.listed, hlive, hout, List.sum_eq_zero_iff]
      intro k hk
      obtain ⟨x, hx, rfl⟩ := List.mem_map.mp hk
      exact hzero x hx
    refine ⟨by simp [hissued], fun _ _ => hissued ▸ by decide, .inl (by simp [hlisted]),
      fun a ha hne => ?_, hout ▸ hc.each⟩
    rw [State.addrs, hlive] at ha
    rw [hout] at hne
    obtain ⟨j, hji, hj⟩ := hc.others hun ha hne
    exact ⟨j, by rwa [hpj j hji]⟩
  | @issue a hlive ha hout hissued hq hp =>
    have htotal := hc.total_alone h (by rw [hq]; rfl) (by rw [hq]; rfl)
    have hlt := hc.room i (by rw [hq]; rfl)
    have hlisted : t.listed ≤ s.listed + 1 := by
      rw [State.listed, hlive, hout]
      exact listed_issue h.linked.nodup
    refine ⟨hissued ▸ hc.issued, fun j hj => hissued ▸ hlt,
      .inr ⟨by omega, i, by rw [hpi, hp]; rfl⟩, fun b hb hne => ?_, fun b => ?_⟩
    · rw [State.addrs, hlive] at hb
      have hba : b ≠ a := fun he => hb (he ▸ ha)
      rw [hout, Function.update_of_ne hba] at hne
      obtain ⟨j, hji, hj⟩ := hc.others (by rw [hq]; rfl) hb hne
      exact ⟨j, by rwa [hpj j hji]⟩
    · rw [hout, Function.update_apply]
      split
      · have := State.outstanding_le_listed ha
        omega
      · exact hc.each b
  | count hlive hout hissued hq hp =>
    have hlt := hc.room i (by rw [hq]; rfl)
    have hmod : t.issued = s.issued + 1 := by
      rw [hissued]
      refine Nat.mod_eq_of_lt ?_
      have : requestRmaLimit < 2 ^ 32 := by decide
      omega
    have hlisted : t.listed ≤ s.listed := State.listed_le hlive fun b => by rw [hout]
    refine ⟨by omega, fun j hj => ?_, .inl ?_, fun b hb hne => ?_, hout ▸ hc.each⟩
    · -- the other threads are outside of the mutex
      have hji : j ≠ i := fun he => by
        rw [he, hpi, hp] at hj
        cases hj
      rw [hpj j hji] at hj
      have hcrit : (s.pc j).critical = true := by
        cases hp : s.pc j <;> rw [hp] at hj <;> first | rfl | cases hj
      rw [h.alone (by rw [hq]; rfl) hji] at hcrit
      cases hcrit
    · rcases hc.total with htotal | ⟨htotal, -⟩ <;> omega
    · rw [State.addrs, hlive] at hb
      rw [hout] at hne
      obtain ⟨j, hji, hj⟩ := hc.others (by rw [hq]; rfl) hb hne
      exact ⟨j, by rwa [hpj j hji]⟩

theorem next (hc : Counted s) (h : Inv world.size s) (hg : Regions world s)
    (hok : Contract world s x) (ht : s.next world x = some t) : Counted t := by
  cases x with
  | step i =>
    obtain ⟨p, hpc, he⟩ := turn_effect h hg hok ht
    exact hc.turn h hpc he
  | call i c =>
    simp only [State.next] at ht
    split at ht
    · rename_i hpc
      have hcall : ∃ p, t.pc = Function.update s.pc i p ∧ Effect s (s.pc i) p t := by
        rw [hpc]
        cases c with
        | create a mreg =>
          simp only [State.enter] at ht
          split at ht <;> cases ht
          exact ⟨_, rfl, .pass rfl rfl rfl rfl rfl rfl⟩
        | destroy a | walk query | rma a =>
          simp only [State.enter, Option.some.injEq] at ht
          exact ht ▸ ⟨_, rfl, .pass rfl rfl rfl rfl rfl rfl⟩
      obtain ⟨p, hpc', he⟩ := hcall
      exact hc.turn h hpc' he
    · cases ht
  | complete a =>
    simp only [State.next, Option.some.injEq] at ht
    subst ht
    have hout : ∀ b, (s.setOutstanding a (s.outstanding a - 1)).outstanding b ≤
        s.outstanding b := by
      intro b
      simp only [State.setOutstanding, Function.update_apply]
      split
      · rename_i hb
        subst hb
        exact Nat.sub_le _ _
      · exact le_rfl
    have hle : (s.setOutstanding a (s.outstanding a - 1)).listed ≤ s.listed :=
      State.listed_le rfl hout
    exact ⟨hc.issued, hc.room, hc.total.imp hle.trans fun hx => ⟨hle.trans hx.1, hx.2⟩,
      fun b hb hne => hc.unreached b hb fun hz => hne (Nat.le_zero.mp (hz ▸ hout b)),
      fun b => (hout b).trans (hc.each b)⟩

theorem init : Counted (State.empty : State n) where
  issued := Nat.zero_le _
  room _ h := by cases h
  total := .inl le_rfl
  unreached _ _ hne := absurd rfl hne
  each _ := Nat.zero_le _

end Counted

theorem counted_of_runs (hr : Runs world n s) : Counted s :=
  hr.invariant (fun _ hi => hi ▸ .init) fun _ _ _ hs hc hn =>
    hc.next (inv_of_runs hs) (safe_of_runs hs).2 (System.restrict_next.mp hn).1
      (System.restrict_next.mp hn).2

theorem sum_listed (h : Inv nproc s) (rs : Finset Nat) (hrs : ∀ a ∈ rs, a ∈ s.addrs) :
    ∑ a ∈ rs, s.outstanding a ≤ s.listed := by
  have hlist : s.listed = ∑ a ∈ s.addrs.toFinset, s.outstanding a := by
    rw [State.addrs, List.sum_toFinset _ h.linked.nodup, State.listed, List.map_map]
    rfl
  rw [hlist]
  exact Finset.sum_le_sum_of_subset fun a ha => List.mem_toFinset.mpr (hrs a ha)

/-- What is outstanding on some regions off the list: each of them is in the hands of a
thread of its own. -/
theorem sum_unreached (hc : Counted s) (rs : Finset Nat) (hrs : ∀ a ∈ rs, a ∉ s.addrs) :
    ∑ a ∈ rs, s.outstanding a ≤
      requestRmaLimit * count fun i => ((s.pc i).unreached).isSome := by
  have hsub : rs.filter (s.outstanding · ≠ 0) ⊆
      (Finset.univ.filter fun i => ((s.pc i).unreached).isSome = true).image
        fun i => ((s.pc i).unreached).getD 0 := by
    intro a ha
    obtain ⟨ha, hne⟩ := Finset.mem_filter.mp ha
    obtain ⟨i, hi⟩ := hc.unreached a (hrs a ha) hne
    exact Finset.mem_image.mpr ⟨i, by simp [hi], by simp [hi]⟩
  calc ∑ a ∈ rs, s.outstanding a
      = ∑ a ∈ rs.filter (s.outstanding · ≠ 0), s.outstanding a := by rw [Finset.sum_filter_ne_zero]
    _ ≤ (rs.filter (s.outstanding · ≠ 0)).card * requestRmaLimit :=
        Finset.sum_le_card_nsmul _ _ _ fun a _ => hc.each a
    _ ≤ (count fun i => ((s.pc i).unreached).isSome) * requestRmaLimit :=
        Nat.mul_le_mul_right _ ((Finset.card_le_card hsub).trans Finset.card_image_le)
    _ = _ := Nat.mul_comm _ _

/-- However the threads interleave, no more requests are outstanding than the limit, and
once more the limit for each thread that has taken a region off the list and not yet
ended its epoch. -/
theorem request_limit_threads (hr : Runs world n s) (rs : Finset Nat) :
    ∑ a ∈ rs, s.outstanding a ≤
      requestRmaLimit * (1 + count fun i => ((s.pc i).unreached).isSome) := by
  have hc := counted_of_runs hr
  have hon := sum_listed (inv_of_runs hr) (rs.filter (· ∈ s.addrs)) fun a ha =>
    (Finset.mem_filter.mp ha).2
  have hoff := sum_unreached hc (rs.filter (· ∉ s.addrs)) fun a ha =>
    (Finset.mem_filter.mp ha).2
  have hle := hc.listed_le
  rw [← Finset.sum_filter_add_sum_filter_not rs (· ∈ s.addrs), Nat.mul_add, Nat.mul_one]
  omega

/-- A request on a region that the other thread has taken off the list. -/
theorem request_limit_threads_pair :
    ∃ s, Runs pairWorld 2 s ∧ s.outstanding 1 = 1 ∧ s.addrs = [] ∧ (s.pc 0).unreached = some 1 ∧
      ∑ a ∈ {1}, s.outstanding a ≤
        requestRmaLimit * (1 + count fun i => ((s.pc i).unreached).isSome) := by
  have hrun : ∃ s, Runs pairWorld 2 s ∧ s.outstanding 1 = 1 ∧ s.addrs = [] ∧
      (s.pc 0).unreached = some 1 :=
    ⟨_, .runOk (.init rfl) (.call 0 (.create 1 (octet 64)) :: List.replicate 4 (.step 0) ++
      .call 1 (.rma 1) :: List.replicate 5 (.step 1) ++
      .call 0 (.destroy 1) :: List.replicate 4 (.step 0)) rfl, rfl, rfl, rfl⟩
  obtain ⟨s, hr, hout, haddrs, hpc⟩ := hrun
  exact ⟨s, hr, hout, haddrs, hpc, request_limit_threads hr {1}⟩

end ArmciMpi.ListThreads
