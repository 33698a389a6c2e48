import ArmciMpi.Runtime.Lookup

/-!
# Collective free

Every member of a group calls `ARMCI_Free_group` with its own pointer to a
region, which is null where it allocated nothing. The members agree on the
member with the highest world rank among those that passed a pointer; its base
address is the key by which the others find the region in their own lists.

`freeGroup_destroys` says that all of them find the region itself, whatever
other regions are live, and that only this region goes.
-/

namespace ArmciMpi

open Lib

section
variable {C : Cluster} {R : Region}

theorem Cluster.group_from {g : AllocGroup} (h : ∀ r ∈ g.comm.ranks, r < C.size)
    (p : Fin C.size) : (C.group g p).From (C.world p) (C.cfg p) g.comm :=
  ⟨h, g.dup, _, rfl, rfl⟩

theorem Region.Ok.mreg_ok (hR : R.Ok C) {p : Fin C.size} (hp : p.val ∈ R.win.comm.ranks) :
    (C.mreg R p).Ok (C.world p) (C.cfg p) R.win where
  window := rfl
  group := C.group_from (g := ⟨R.win.comm, R.dup⟩) hR.ranks p
  member := hp
  nslices := rfl
  outside q hq := hR.outside q fun hmem => by
    have := Comm.rankOf_isSome.mpr hmem
    simp [hq] at this
  base q g hg _ := hR.base q g hg
  nonnull q h := hR.nonnull q h

end

namespace Regions

variable {C : Cluster} {s t : State C} {R : Region} {g : AllocGroup}
  {mregs : Fin C.size → Option Nat}

theorem contains_base {x : Slice} (hpos : 0 < x.size) : x.Contains x.base :=
  ⟨Int.le_refl _, by omega⟩

-- ------------------------------
-- The exchange
-- ------------------------------

def Keyed (s : State C) (R : Region) (g : AllocGroup) (mregs : Fin C.size → Option Nat) : Prop :=
  ∀ p ∈ C.members g.comm, ∀ a, mregs p = some a →
    ∃ c, (s.lists p).cells a = some c ∧ c.val = C.mreg R p

theorem exists_provider (mregs : Fin C.size → Option Nat) (h : ∃ p ∈ C.members g.comm, mregs p ≠ none) :
    ∃ q ∈ C.members g.comm, searchProcOut g mregs = (q.val : Int) ∧ mregs q ≠ none := by
  obtain ⟨p, hp, hne⟩ := h
  have hin : searchProcIn (mregs p) p = p := by
    simp [searchProcIn, Option.isSome_iff_ne_none.mpr hne]
  have hmem : (p.val : Int) ∈ (C.members g.comm).map fun p => searchProcIn (mregs p) p :=
    List.mem_map.mpr ⟨p, hp, hin⟩
  obtain ⟨m, hm⟩ : ∃ m, ((C.members g.comm).map fun p => searchProcIn (mregs p) p).max? = some m :=
    Option.isSome_iff_exists.mp (List.isSome_max?_of_mem hmem)
  obtain ⟨hmax, hle⟩ := List.max?_eq_some_iff.mp hm
  obtain ⟨q, hq, rfl⟩ := List.mem_map.mp hmax
  have hge := hle _ hmem
  have hsome : (mregs q).isSome := by
    by_contra hnone
    simp only [searchProcIn, hnone] at hge
    have : (0 : Int) ≤ p.val := Int.natCast_nonneg _
    simp at hge
    omega
  refine ⟨q, hq, ?_, Option.isSome_iff_ne_none.mp hsome⟩
  rw [searchProcOut, hm]
  simp [searchProcIn, hsome]

theorem searchBase_ok (hranks : ∀ r ∈ g.comm.ranks, r < C.size) (hkey : Keyed s R g mregs)
    (hq : q ∈ C.members g.comm) (hout : searchProcOut g mregs = (q.val : Int))
    (hne : mregs q ≠ none) (p : Fin C.size) :
    searchBase s g mregs p = .ok (R.slice q).base := by
  obtain ⟨r, hr⟩ := Option.isSome_iff_exists.mp
    (Comm.rankOf_isSome.mpr (Cluster.mem_members.mp hq))
  have hfind : ((C.members g.comm).find? fun q' =>
      0 ≤ (r : Int) ∧ g.comm.rankOf q'.val = some (r : Int).toNat) = some q := by
    cases hf : (C.members g.comm).find? fun q' =>
        0 ≤ (r : Int) ∧ g.comm.rankOf q'.val = some (r : Int).toNat with
    | none =>
      have := List.find?_eq_none.mp hf q hq
      simp [hr] at this
    | some q' =>
      have hq' := List.find?_some hf
      simp only [Int.toNat_natCast, decide_eq_true_eq] at hq'
      have := (Comm.rankOf_eq_some.mp hq'.2).symm.trans (Comm.rankOf_eq_some.mp hr)
      exact congrArg some (Fin.ext (Option.some.inj this))
  obtain ⟨a, ha⟩ := Option.ne_none_iff_exists'.mp hne
  obtain ⟨c, hc, hval⟩ := hkey q hq a ha
  unfold searchBase
  rw [hout, Int.toNat_natCast, translate_member (C.group_from hranks p) hr]
  simp only [bind, Except.bind, hfind, searchBaseIn, ha, GmrList.get_ok hc, hval]
  rfl

/-- Every member selects the region, if its key is a nonempty slice where it is
needed. -/
theorem Inv.selects (h : Inv s) (hR : R ∈ s.live) (hg : g.comm = R.win.comm)
    (hkey : Keyed s R g mregs) (hq : q ∈ C.members g.comm)
    (hout : searchProcOut g mregs = (q.val : Int)) (hne : mregs q ≠ none)
    (hpos : ∀ p ∈ C.members g.comm, mregs p = none → 0 < (R.slice q).size)
    (hp : p ∈ C.members g.comm) :
    ∃ a c, Regions.selects s g mregs p = .ok (some a) ∧ (s.lists p).cells a = some c ∧
      c.val = C.mreg R p := by
  have hranks : ∀ r ∈ g.comm.ranks, r < C.size := hg ▸ (h.ok R hR).ranks
  unfold Regions.selects
  rw [searchBase_ok hranks hkey hq hout hne]
  cases hm : mregs p with
  | some a =>
    obtain ⟨c, hc, hval⟩ := hkey p hp a hm
    exact ⟨a, c, rfl, hc, hval⟩
  | none =>
    obtain ⟨a, c, hl, hc, hval⟩ := h.lookup hR (p := p) (hg ▸ Cluster.mem_members.mp hp)
      (contains_base (hpos p hp hm))
    refine ⟨a, c, ?_, hc, hval⟩
    simp only [bind, Except.bind, hout, Int.toNat_natCast]
    exact hl

theorem Inv.destroys (h : Inv s) (hg : g.comm = R.win.comm)
    (hout : 0 ≤ searchProcOut g mregs) (hne : C.members g.comm ≠ [])
    (hsel : ∀ p ∈ C.members g.comm, ∃ a c, Regions.selects s g mregs p = .ok (some a) ∧
      (s.lists p).cells a = some c ∧ c.val = C.mreg R p) :
    ∃ t, Regions.gmrDestroy s g mregs = .ok t ∧ t.live = s.live.filter (fun R' => R'.win ≠ R.win) ∧
      ∀ p, ∃ xs, (s.lists p).Holds xs ∧ xs.map Prod.snd = (s.on p).map (C.mreg · p) ∧
        (t.lists p).Holds (xs.filter fun x => x.2.window ≠ some R.win) := by
  have hd : ∀ p ∈ C.members g.comm, ∃ b, destroyOn s g mregs p = .ok b ∧ b.2 = R.win := by
    intro p hp
    obtain ⟨a, c, hsel, hc, hval⟩ := hsel p hp
    obtain ⟨xl, xr, -, R', -, hxs, -, -, -, -⟩ := h.cell hc
    obtain ⟨l, hl, -⟩ := GmrList.unlink_ok hxs
    exact ⟨(l, R.win), destroyOn_eq_ok.mpr ⟨a, c, hsel, hc, hl, by rw [hval]; rfl⟩, rfl⟩
  obtain ⟨r, hr⟩ := collect_ok fun p hp => (hd p hp).imp fun _ hb => hb.1
  have hfreed : freed g r = .ok R.win := by
    have hall : ∀ win ∈ (C.members g.comm).filterMap fun p => (r p).map Prod.snd, win = R.win := by
      intro win hwin
      obtain ⟨p, hp, hrp⟩ := List.mem_filterMap.mp hwin
      obtain ⟨b, hb, hb'⟩ := (collect_eq_ok hr p).1 hp
      obtain ⟨b', hd', hwin'⟩ := hd p hp
      rw [hb] at hd'
      cases hd'
      rw [hb'] at hrp
      cases hrp
      exact hwin'
    obtain ⟨p, hp⟩ := List.exists_mem_of_ne_nil _ hne
    obtain ⟨b, hb, hb'⟩ := (collect_eq_ok hr p).1 hp
    unfold freed
    cases hw : (C.members g.comm).filterMap fun p => (r p).map Prod.snd with
    | nil =>
      have : b.2 ∈ (C.members g.comm).filterMap fun p => (r p).map Prod.snd :=
        List.mem_filterMap.mpr ⟨p, hp, by simp [hb']⟩
      rw [hw] at this
      cases this
    | cons win wins =>
      rw [hw] at hall
      obtain rfl := hall win List.mem_cons_self
      simp only
      rw [if_pos ⟨fun w hw => hall w (List.mem_cons_of_mem _ hw), by rw [hg]⟩]
  refine ⟨⟨fun p => ((r p).map Prod.fst).getD (s.lists p),
    s.live.filter fun R' => R'.win ≠ R.win, s.wins⟩, ?_, rfl, fun p => ?_⟩
  · unfold Regions.gmrDestroy
    rw [if_neg (by omega)]
    simp only [bind, Except.bind, hr, hfreed]
  · by_cases hp : p ∈ C.members g.comm
    · obtain ⟨b, hb, hrp⟩ := (collect_eq_ok hr p).1 hp
      obtain ⟨b', hb', hwin⟩ := hd p hp
      rw [hb] at hb'
      cases hb'
      have hb : destroyOn s g mregs p = .ok (b.1, b.2) := hb
      obtain ⟨-, -, -, xs, hxs, hval, hl⟩ := h.destroyed hb
      exact ⟨xs, hxs, hval, by simpa [hrp, hwin] using hl⟩
    · obtain ⟨xs, hxs, hval⟩ := h.holds p
      have hself : xs.filter (fun x => x.2.window ≠ some R.win) = xs := by
        refine List.filter_eq_self.mpr fun x hx => ?_
        obtain ⟨R', hR', heq⟩ := List.mem_map.mp (hval ▸ List.mem_map_of_mem hx)
        simp only [← heq, Cluster.mreg, ne_eq, Option.some.injEq, decide_eq_true_eq]
        intro hwin
        apply hp
        rw [Cluster.mem_members, hg, ← hwin]
        simpa using (List.mem_filter.mp hR').2
      refine ⟨xs, hxs, hval, ?_⟩
      rw [hself]
      simpa [(collect_eq_ok hr p).2 hp] using hxs

-- ------------------------------
-- ARMCI_Free_group
-- ------------------------------

/-- What a member hands to `gmr_destroy` when it frees its slice. -/
theorem Inv.freeMreg (h : Inv s) (hR : R ∈ s.live) {ptrs : Fin C.size → Int}
    (hp : p.val ∈ R.win.comm.ranks) (hptr : ptrs p = (R.slice p).base) :
    ∃ m, Regions.freeMreg s ptrs p = .ok m ∧
      (0 < (R.slice p).size ↔ m ≠ none) ∧
      ∀ a, m = some a → ∃ c, (s.lists p).cells a = some c ∧ c.val = C.mreg R p := by
  have hok := h.ok R hR
  have hsize := hok.size p
  unfold Regions.freeMreg
  by_cases hpos : 0 < (R.slice p).size
  · have hbase := hok.nonnull p hpos
    obtain ⟨a, c, hl, hc, hval⟩ := h.lookup hR hp (contains_base hpos)
    refine ⟨some a, ?_, by simp [hpos], ?_⟩
    · rw [if_pos (by rw [hptr]; omega), hptr, hl]
      rfl
    · rintro a' ha'
      cases ha'
      exact ⟨c, hc, hval⟩
  · have hnull := hok.null p (by omega)
    exact ⟨none, by rw [if_neg (by simp [hptr, hnull])], by simp [hpos], by simp⟩

/-- All members free a live region with their own pointers to it: every member
selects that region, no call fails, and every other region stays on every
list. -/
theorem freeGroup_destroys (hs : (system C).Reachable s) (hR : R ∈ s.live)
    (hg : g.comm = R.win.comm) (ptrs : Fin C.size → Int)
    (hptr : ∀ p : Fin C.size, p.val ∈ g.comm.ranks → ptrs p = (R.slice p).base) :
    ∃ mregs t, collect (C.members g.comm) (freeMreg s ptrs) = .ok mregs ∧
      armciFreeGroup s g ptrs = .ok t ∧
      (∀ p : Fin C.size, p.val ∈ g.comm.ranks →
        ∃ a c, selects s g (fun p => (mregs p).join) p = .ok (some a) ∧
          (s.lists p).cells a = some c ∧ c.val = C.mreg R p) ∧
      t.live = s.live.filter (fun R' => R'.win ≠ R.win) ∧
      ∀ p, ∃ xs, (s.lists p).Holds xs ∧ xs.map Prod.snd = (s.on p).map (C.mreg · p) ∧
        (t.lists p).Holds (xs.filter fun x => x.2.window ≠ some R.win) := by
  have h := inv_of_reachable hs
  have hfree : ∀ p ∈ C.members g.comm, ∃ m, freeMreg s ptrs p = .ok m ∧
      (0 < (R.slice p).size ↔ m ≠ none) ∧
      ∀ a, m = some a → ∃ c, (s.lists p).cells a = some c ∧ c.val = C.mreg R p := fun p hp =>
    have hp := Cluster.mem_members.mp hp
    h.freeMreg hR (hg ▸ hp) (hptr p hp)
  obtain ⟨mregs, hmregs⟩ := collect_ok fun p hp => (hfree p hp).imp fun _ hm => hm.1
  have hjoin : ∀ p ∈ C.members g.comm, (0 < (R.slice p).size ↔ (mregs p).join ≠ none) ∧
      ∀ a, (mregs p).join = some a → ∃ c, (s.lists p).cells a = some c ∧ c.val = C.mreg R p := by
    intro p hp
    obtain ⟨m, hm, hpos, hcell⟩ := hfree p hp
    obtain ⟨m', hm', hr⟩ := (collect_eq_ok hmregs p).1 hp
    rw [hm] at hm'
    cases hm'
    simpa [hr] using ⟨hpos, hcell⟩
  -- some member has a nonempty slice, so the provider has one
  obtain ⟨p₀, hp₀, hpos₀⟩ := (h.ok R hR).nonempty
  have hmem₀ : (⟨p₀, (h.ok R hR).ranks p₀ hp₀⟩ : Fin C.size) ∈ C.members g.comm :=
    Cluster.mem_members.mpr (hg ▸ hp₀)
  obtain ⟨q, hq, hout, hne⟩ := exists_provider (fun p => (mregs p).join)
    ⟨_, hmem₀, (hjoin _ hmem₀).1.mp hpos₀⟩
  have hsel := fun p hp => h.selects hR hg (fun p hp => (hjoin p hp).2) hq hout hne
    (fun _ _ _ => (hjoin q hq).1.mpr hne) (p := p) hp
  obtain ⟨t, ht, hlive, hlists⟩ := h.destroys hg (by rw [hout]; exact Int.natCast_nonneg _)
    (List.ne_nil_of_mem hq) hsel
  refine ⟨mregs, t, hmregs, ?_, fun p hp => hsel p (Cluster.mem_members.mpr hp), hlive, hlists⟩
  unfold armciFreeGroup
  rw [hmregs]
  exact ht

theorem freeGroup_destroys_oneSided :
    ∃ s t : State pairCluster, (system pairCluster).Reachable s ∧
      oneSided.region pairCluster 0 ∈ s.live ∧
      armciFreeGroup s oneSided.group (fun p => if p.val = 0 then 0 else 4096) = .ok t ∧
      t.live = s.live.filter (fun R => R.win ≠ (oneSided.region pairCluster 0).win) := by
  obtain ⟨s, hreach, hlive⟩ := reachable_oneSided
  have hmem : oneSided.region pairCluster 0 ∈ s.live := by simp [hlive]
  obtain ⟨_, t, -, ht, -, hrest, -⟩ := freeGroup_destroys (g := oneSided.group) hreach hmem rfl
    (fun p => if p.val = 0 then 0 else 4096) (by decide +kernel)
  exact ⟨s, t, hreach, hmem, ht, hrest⟩

end Regions

end ArmciMpi
