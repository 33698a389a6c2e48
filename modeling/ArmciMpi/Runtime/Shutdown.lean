import ArmciMpi.Runtime.FreeGroup

/-!
# Destroying all regions

`gmr_destroy_all`, run by all processes at once. Each process repeatedly calls
`gmr_destroy` on the head of its own list, with that region's group; the call
is collective, so it happens when every member of the group has come to a call
on it. The processes agree on nothing beforehand: whether they ever come to the
same call depends on the order of their lists.

Because every list is in the order of creation, the oldest live region is at the
head of the lists of all its members. `regionList_shutdown` says what follows
for every run of collective calls and every way the processes can then shut
down.
-/

namespace ArmciMpi.Regions

open Lib

variable {C : Cluster}

/-- The processes in `gmr_destroy_all`, with their variables `count`. -/
structure Shutdown (C : Cluster) where
  regions : State C
  count : Fin C.size → Nat

/-- The group on which a process makes its next call, `none` when its list is
empty and the loop ends. -/
def State.nextGroup (s : State C) (p : Fin C.size) : Option Group :=
  (s.lists p).head.bind fun a => ((s.lists p).cells a).map fun c => c.val.group

def State.Meets (s : State C) (g : AllocGroup) : Prop :=
  C.members g.comm ≠ [] ∧ ∀ p ∈ C.members g.comm, s.nextGroup p = some (C.group g p)

instance (s : State C) (g : AllocGroup) : Decidable (s.Meets g) :=
  inferInstanceAs (Decidable (_ ∧ _))

/-- The collective call of `gmr_destroy` by all members of a group, each with the
head of its list. -/
def destroyHeads (s : State C) (g : AllocGroup) : Except String (State C) :=
  gmrDestroy s g fun p => (s.lists p).head

def Shutdown.next (d : Shutdown C) (g : AllocGroup) : Option (Shutdown C) :=
  if d.regions.Meets g then
    (destroyHeads d.regions g).toOption.map fun t =>
      ⟨t, fun p => if p ∈ C.members g.comm then d.count p + 1 else d.count p⟩
  else none

/-- `gmr_destroy_all` on all processes, from a state of the lists. -/
def gmrDestroyAll (s : State C) : System (Shutdown C) AllocGroup :=
  ⟨(· = ⟨s, fun _ => 0⟩), Shutdown.next⟩

-- ------------------------------
-- Heads of the lists
-- ------------------------------

section
variable {s t : State C}

theorem unlink_ne_error (h : Inv s) (p : Fin C.size) (a : Nat) :
    (s.lists p).unlink a ≠ .error "gmr_list == mreg" := by
  cases hc : (s.lists p).cells a with
  | none =>
    have hget : (s.lists p).get a = .error "dangling pointer" := by simp [GmrList.get, hc]
    simp [GmrList.unlink, hget, bind, Except.bind]
  | some c =>
    obtain ⟨xl, xr, -, R, -, hxs, -⟩ := h.cell hc
    obtain ⟨l, hl, -⟩ := GmrList.unlink_ok hxs
    simp [hl]

theorem Inv.head (h : Inv s) (hon : s.on p = R :: rest) :
    ∃ a c, (s.lists p).head = some a ∧ (s.lists p).cells a = some c ∧ c.val = C.mreg R p := by
  obtain ⟨xs, hxs, hval⟩ := h.holds p
  rw [hon, List.map_cons] at hval
  obtain ⟨x, xr, rfl, hx, -⟩ := List.map_eq_cons_iff.mp hval
  obtain ⟨_, _, hc⟩ := hxs.linked.get (a := x.1) (v := x.2) List.mem_cons_self
  exact ⟨x.1, _, hxs.linked.head, hc, hx⟩

theorem Inv.head_eq_none (h : Inv s) (p : Fin C.size) : (s.lists p).head = none ↔ s.on p = [] := by
  obtain ⟨xs, hxs, hval⟩ := h.holds p
  rw [hxs.linked.head]
  constructor
  · intro hnone
    cases xs with
    | nil => exact List.map_eq_nil_iff.mp hval.symm
    | cons x xs => cases hnone
  · intro hnil
    rw [hnil] at hval
    rw [List.map_eq_nil_iff.mp hval]
    rfl

theorem Inv.nextGroup (h : Inv s) (hg : s.nextGroup p = some (C.group g p)) :
    ∃ R rest, s.on p = R :: rest ∧ R.win.comm = g.comm := by
  cases hon : s.on p with
  | nil =>
    rw [State.nextGroup, (h.head_eq_none p).mpr hon] at hg
    cases hg
  | cons R rest =>
    obtain ⟨a, c, hhead, hc, hval⟩ := h.head hon
    refine ⟨R, rest, rfl, ?_⟩
    simp only [State.nextGroup, hhead, hc, Option.bind_some, Option.map_some, hval,
      Option.some.injEq] at hg
    have := congrArg Group.comm hg
    simpa [Cluster.mreg, Cluster.group, groupInitFromComm] using this

theorem find?_eq_of_mutual {α : Type} {P Q : α → Bool} {l : List α} {x y : α}
    (hx : l.find? P = some x) (hy : l.find? Q = some y) (hxQ : Q x = true) (hyP : P y = true) :
    x = y := by
  induction l with
  | nil => cases hx
  | cons z l ih =>
    by_cases hP : P z = true
    · rw [List.find?_cons_of_pos hP] at hx
      cases hx
      rw [List.find?_cons_of_pos hxQ] at hy
      exact Option.some.inj hy
    · rw [List.find?_cons_of_neg hP] at hx
      by_cases hQ : Q z = true
      · rw [List.find?_cons_of_pos hQ] at hy
        cases hy
        exact absurd hyP hP
      · rw [List.find?_cons_of_neg hQ] at hy
        exact ih hx hy

theorem State.find?_of_on (hon : s.on p = R :: rest) :
    s.live.find? (fun R => p.val ∈ R.win.comm.ranks) = some R := by
  rw [← List.head?_filter]
  have : s.live.filter (fun R => p.val ∈ R.win.comm.ranks) = R :: rest := hon
  rw [this]
  rfl

/-- Processes that meet in a call have the same region at the head of their
lists. -/
theorem Inv.meets (h : Inv s) (hm : s.Meets g) :
    ∃ R ∈ s.live, R.win.comm = g.comm ∧ ∀ p ∈ C.members g.comm, ∃ rest, s.on p = R :: rest := by
  obtain ⟨p, hp⟩ := List.exists_mem_of_ne_nil _ hm.1
  obtain ⟨R, rest, hon, hcomm⟩ := h.nextGroup (hm.2 p hp)
  refine ⟨R, List.mem_of_mem_filter (hon ▸ List.mem_cons_self : R ∈ s.on p), hcomm,
    fun q hq => ?_⟩
  obtain ⟨R', rest', hon', hcomm'⟩ := h.nextGroup (hm.2 q hq)
  have hpq : R = R' := by
    refine find?_eq_of_mutual (State.find?_of_on hon) (State.find?_of_on hon') ?_ ?_
    · simpa [hcomm] using hq
    · simpa [hcomm'] using hp
  exact ⟨rest', hpq ▸ hon'⟩

theorem State.oldest (hlive : s.live = R :: rest) (hp : p.val ∈ R.win.comm.ranks) :
    ∃ rest', s.on p = R :: rest' := by
  refine ⟨rest.filter fun R => p.val ∈ R.win.comm.ranks, ?_⟩
  rw [State.on, hlive, List.filter_cons_of_pos (by simpa using hp)]

theorem Inv.meets_oldest (h : Inv s) (hlive : s.live = R :: rest) :
    s.Meets ⟨R.win.comm, R.dup⟩ := by
  have hR := h.ok R (by simp [hlive])
  obtain ⟨p, hp, -⟩ := hR.nonempty
  have hmem : (⟨p, hR.ranks p hp⟩ : Fin C.size) ∈ C.members R.win.comm :=
    Cluster.mem_members.mpr hp
  refine ⟨List.ne_nil_of_mem hmem, fun p hp => ?_⟩
  obtain ⟨rest', hon⟩ := State.oldest hlive (Cluster.mem_members.mp hp)
  obtain ⟨a, c, hhead, hc, hval⟩ := h.head hon
  simp [State.nextGroup, hhead, hc, hval, Cluster.mreg]

theorem Inv.destroyHeads (h : Inv s) (hm : s.Meets g) :
    ∃ R ∈ s.live, ∃ t, Regions.destroyHeads s g = .ok t ∧
      t.live = s.live.filter (fun R' => R'.win ≠ R.win) ∧
      (∀ p ∈ C.members g.comm, ∃ rest, s.on p = R :: rest ∧ t.on p = rest) ∧
      ∀ p ∉ C.members g.comm, t.on p = s.on p := by
  obtain ⟨R, hR, hcomm, hon⟩ := h.meets hm
  have hkey : Keyed s R g fun p => (s.lists p).head := by
    intro p hp a ha
    obtain ⟨rest, hrest⟩ := hon p hp
    obtain ⟨a', c, hhead, hc, hval⟩ := h.head hrest
    obtain rfl := Option.some.inj (hhead.symm.trans ha)
    exact ⟨c, hc, hval⟩
  have hne : ∀ p ∈ C.members g.comm, (s.lists p).head ≠ none := by
    intro p hp hnone
    obtain ⟨rest, hrest⟩ := hon p hp
    rw [h.head_eq_none, hrest] at hnone
    cases hnone
  obtain ⟨p, hp⟩ := List.exists_mem_of_ne_nil _ hm.1
  obtain ⟨q, hq, hout, hneq⟩ := exists_provider (fun p => (s.lists p).head) ⟨p, hp, hne p hp⟩
  obtain ⟨t, ht, hlive, -⟩ := h.destroys hcomm.symm (by rw [hout]; exact Int.natCast_nonneg _) hm.1
    fun p hp => h.selects hR hcomm.symm hkey hq hout hneq
      (fun p hp hnone => absurd hnone (hne p hp)) hp
  have hton : ∀ p, t.on p = (s.on p).filter fun R' => R'.win ≠ R.win := by
    intro p
    simp only [State.on, hlive]
    exact List.filter_comm ..
  refine ⟨R, hR, t, ht, hlive, fun p hp => ?_, fun p hp => ?_⟩
  · obtain ⟨rest, hrest⟩ := hon p hp
    refine ⟨rest, hrest, ?_⟩
    rw [hton, hrest, List.filter_cons_of_neg (by simp), List.filter_eq_self.mpr]
    intro R' hR'
    have hnd : ((s.on p).map fun R => R.win.id).Nodup := h.ids.sublist (List.filter_sublist.map _)
    rw [hrest, List.map_cons, List.nodup_cons] at hnd
    simp only [ne_eq, decide_eq_true_eq]
    exact fun heq => hnd.1 (List.mem_map.mpr ⟨R', hR', by rw [heq]⟩)
  · rw [hton, List.filter_eq_self.mpr]
    intro R' hR'
    simp only [ne_eq, decide_eq_true_eq]
    intro heq
    apply hp
    rw [Cluster.mem_members, ← hcomm, ← heq]
    simpa using (List.mem_filter.mp hR').2

end

-- ------------------------------
-- Runs
-- ------------------------------

section
variable {s : State C} {d e : Shutdown C}

/-- What holds of the processes on the way: every region still on a list is
counted later, every other one has been counted. -/
structure Shutdown.Inv (s : State C) (d : Shutdown C) : Prop where
  regions : Regions.Inv d.regions
  count : ∀ p, d.count p + (d.regions.on p).length = (s.on p).length

theorem Shutdown.next_cases (hn : d.next g = some e) :
    d.regions.Meets g ∧ destroyHeads d.regions g = .ok e.regions ∧
      e.count = fun p => if p ∈ C.members g.comm then d.count p + 1 else d.count p := by
  simp only [Shutdown.next, Option.ite_none_right_eq_some, Option.map_eq_some_iff] at hn
  obtain ⟨hm, t, ht, rfl⟩ := hn
  exact ⟨hm, eq_ok_of_toOption ht, rfl⟩

theorem Shutdown.Inv.next (h : Shutdown.Inv s d) (hn : d.next g = some e) :
    Shutdown.Inv s e ∧ e.regions.live.length < d.regions.live.length := by
  obtain ⟨hm, ht, hcount⟩ := Shutdown.next_cases hn
  obtain ⟨R, hR, t, ht', hlive, hin, hout⟩ := h.regions.destroyHeads hm
  rw [ht] at ht'
  cases ht'
  refine ⟨⟨h.regions.gmrDestroy ht, fun p => ?_⟩, ?_⟩
  · have hp := h.count p
    by_cases hmem : p ∈ C.members g.comm
    · obtain ⟨rest, hon, hon'⟩ := hin p hmem
      simp only [hcount, hmem, if_true, hon'] at *
      rw [hon, List.length_cons] at hp
      omega
    · simp only [hcount, hmem, if_false, hout p hmem]
      exact hp
  · rw [hlive]
    refine List.length_filter_lt_length_iff_exists.mpr ⟨R, hR, by simp⟩

theorem gmrDestroyAll_inv (hs : Inv s) (hd : (gmrDestroyAll s).Reachable d) :
    Shutdown.Inv s d :=
  hd.invariant (by rintro d rfl; exact ⟨hs, fun p => Nat.zero_add _⟩)
    fun _ _ _ _ h hn => (h.next hn).1

theorem Shutdown.run_length_le (hr : (gmrDestroyAll s).run d as = some e)
    (hd : Shutdown.Inv s d) : as.length ≤ d.regions.live.length := by
  rw [← System.cost_one hr]
  refine System.cost_le (fun d n => Shutdown.Inv s d ∧ d.regions.live.length ≤ n)
    (fun _ => True) ?_ ⟨hd, Nat.le_refl _⟩ fun _ _ => trivial
  rintro d n g e ⟨h, hle⟩ - hn
  obtain ⟨he, hlt⟩ := h.next hn
  exact ⟨by omega, he, by omega⟩

theorem Shutdown.Inv.progress (h : Shutdown.Inv s d) (hm : d.regions.Meets g) :
    ∃ e, d.next g = some e := by
  obtain ⟨R, -, t, ht, -⟩ := h.regions.destroyHeads hm
  exact ⟨_, by rw [Shutdown.next, if_pos hm, ht]; rfl⟩

/-- After any run of collective calls every list is well formed and holds the
live regions of its process in the order of creation, and the assertion in the
unlinking code cannot fail. Shutting down from there, in any order, the oldest
live region is at the head of all its members' lists, every call the processes
come to succeeds, no call is left only when all lists are empty, and a process
that is done has counted the regions it had. -/
theorem regionList_shutdown (hs : (system C).Reachable s) :
    (∀ p, (∃ xs, (s.lists p).Holds xs ∧ xs.map Prod.snd = (s.on p).map (C.mreg · p)) ∧
      ∀ a, (s.lists p).unlink a ≠ .error "gmr_list == mreg") ∧
    ∀ gs d, (gmrDestroyAll s).run ⟨s, fun _ => 0⟩ gs = some d →
      gs.length ≤ s.live.length ∧
      (∀ R rest, d.regions.live = R :: rest → ∀ p : Fin C.size, p.val ∈ R.win.comm.ranks →
        ∃ a c, (d.regions.lists p).head = some a ∧ (d.regions.lists p).cells a = some c ∧
          c.val = C.mreg R p) ∧
      (∀ g, d.regions.Meets g → ∃ e, d.next g = some e) ∧
      ((∀ g, d.next g = none) → ∀ p, (d.regions.lists p).head = none) ∧
      ∀ p, (d.regions.lists p).head = none → d.count p = (s.on p).length := by
  have h := inv_of_reachable hs
  refine ⟨fun p => ⟨h.holds p, unlink_ne_error h p⟩, fun gs d hr => ?_⟩
  have hstart : Shutdown.Inv s ⟨s, fun _ => 0⟩ := ⟨h, fun p => Nat.zero_add _⟩
  have hd := gmrDestroyAll_inv h ((System.Reachable.init rfl).run hr)
  refine ⟨Shutdown.run_length_le hr hstart, fun R rest hlive p hp => ?_,
    fun g hm => hd.progress hm, fun hstuck p => ?_, fun p hnone => ?_⟩
  · obtain ⟨rest', hon⟩ := State.oldest hlive hp
    exact hd.regions.head hon
  · cases hlive : d.regions.live with
    | nil => exact (hd.regions.head_eq_none p).mpr (by simp [State.on, hlive])
    | cons R rest =>
      obtain ⟨e, he⟩ := hd.progress (hd.regions.meets_oldest hlive)
      rw [hstuck] at he
      cases he
  · have := hd.count p
    rw [(hd.regions.head_eq_none p).mp hnone] at this
    simpa using this

end

/-- The two processes after the allocation `oneSided`. -/
def oneSidedState : State pairCluster :=
  (gmrCreate (start pairCluster) oneSided).toOption.getD (start pairCluster)

theorem regionList_shutdown_oneSided :
    ∃ d, (gmrDestroyAll oneSidedState).run ⟨oneSidedState, fun _ => 0⟩ [oneSided.group] = some d ∧
      oneSidedState.live = [oneSided.region pairCluster 0] ∧
      ∀ p, (d.regions.lists p).head = none ∧ d.count p = (oneSidedState.on p).length := by
  have hlegal : oneSided.Legal (start pairCluster) := by decide +kernel
  obtain ⟨t, ht⟩ : ∃ t, (gmrCreate (start pairCluster) oneSided).toOption = some t :=
    Option.isSome_iff_exists.mp (by decide +kernel)
  have hnext : (system pairCluster).next (start pairCluster) (.create oneSided) =
      some oneSidedState := by
    simp only [system, next, if_pos hlegal, oneSidedState, ht, Option.getD_some]
  have hreach : (system pairCluster).Reachable oneSidedState := .step (.init rfl) hnext
  have hrun : ((gmrDestroyAll oneSidedState).run ⟨oneSidedState, fun _ => 0⟩
      [oneSided.group]).map (fun d => (List.finRange 2).all fun p =>
        (d.regions.lists p).head = none) = some true := by decide +kernel
  obtain ⟨d, hd, hempty⟩ := Option.map_eq_some_iff.mp hrun
  refine ⟨d, hd, by decide +kernel, fun p => ?_⟩
  have hhead : (d.regions.lists p).head = none := by
    simpa using List.all_eq_true.mp hempty p (List.mem_finRange p)
  exact ⟨hhead, ((regionList_shutdown hreach).2 _ d hd).2.2.2.2 p hhead⟩

end ArmciMpi.Regions
