import ArmciMpi.Runtime.Fence
import ArmciMpi.Runtime.Regions

/-!
# Looking up regions

`gmr_lookup` returns the first region of the caller's list whose slice on a
process contains the address. After any history of creations and destructions
there is at most one such region among the live ones, so the order of the list
does not matter (`lookup_exact`).
-/

namespace ArmciMpi

open Lib

theorem find?_perm {P : α → Bool} {l l' : List α} (hp : l.Perm l')
    (hone : ∀ x ∈ l, ∀ y ∈ l, P x = true → P y = true → x = y) : l.find? P = l'.find? P := by
  cases hl : l.find? P with
  | none =>
    symm
    rw [List.find?_eq_none] at hl ⊢
    exact fun x hx => hl x (hp.mem_iff.mpr hx)
  | some x =>
    have hx := List.mem_of_find?_eq_some hl
    have hPx := List.find?_some hl
    cases hl' : l'.find? P with
    | none => exact absurd hPx (List.find?_eq_none.mp hl' x (hp.mem_iff.mp hx))
    | some y =>
      exact congrArg some (hone x hx y (hp.mem_iff.mpr (List.mem_of_find?_eq_some hl')) hPx
        (List.find?_some hl'))

namespace Regions

variable {C : Cluster} {s t : State C} {R R' : Region}

theorem Apart.symm {a b : Slice} (h : Apart a b) : Apart b a := by
  unfold Apart at *
  omega

theorem Inv.eq_of_contains (h : Inv s) (hR : R ∈ s.live) (hR' : R' ∈ s.live) {q : Nat} {ptr : Int}
    (hc : (R.slice q).Contains ptr) (hc' : (R'.slice q).Contains ptr) : R = R' := by
  by_contra hne
  have hsymm : Std.Symm fun R R' : Region => ∀ p, Apart (R.slice p) (R'.slice p) :=
    ⟨fun _ _ hap p => (hap p).symm⟩
  have hap := h.apart.forall hR hR' hne q
  unfold Apart at hap
  unfold Slice.Contains at hc hc'
  omega

theorem State.mem_on {p : Fin C.size} : R ∈ s.on p ↔ R ∈ s.live ∧ p.val ∈ R.win.comm.ranks := by
  simp [State.on]

def State.Finds (s : State C) (p q : Fin C.size) (ptr : Int) (a : Nat) (R : Region) : Prop :=
  R ∈ s.on p ∧ (∃ c, (s.lists p).cells a = some c ∧ c.val = C.mreg R p) ∧ (R.slice q).Contains ptr

theorem Inv.lookup_cases (h : Inv s) (p q : Fin C.size) (ptr : Int) :
    (∃ a R, (s.lists p).lookup ptr q = .ok (some a) ∧ s.Finds p q ptr a R) ∨
      (s.lists p).lookup ptr q = .ok none ∧ ∀ R ∈ s.on p, ¬ (R.slice q).Contains ptr := by
  obtain ⟨xs, hxs, hval⟩ := h.holds p
  have hmreg : ∀ x ∈ xs, ∃ R ∈ s.on p, C.mreg R p = x.2 := fun x hx =>
    List.mem_map.mp (hval ▸ List.mem_map_of_mem hx)
  have hn : ∀ x ∈ xs, q.val < x.2.nslices := by
    intro x hx
    obtain ⟨R, -, heq⟩ := hmreg x hx
    rw [← heq]
    exact q.isLt
  rw [GmrList.lookup_ok hxs hn]
  cases hfind : xs.find? fun x => (x.2.slice q).Contains ptr with
  | none =>
    refine .inr ⟨rfl, fun R hR hin => ?_⟩
    obtain ⟨x, hx, heq⟩ := List.mem_map.mp (hval.symm ▸ List.mem_map_of_mem (f := (C.mreg · p)) hR)
    have hout := List.find?_eq_none.mp hfind x hx
    rw [heq] at hout
    exact hout (decide_eq_true hin)
  | some x =>
    have hx := List.mem_of_find?_eq_some hfind
    obtain ⟨R, hR, heq⟩ := hmreg x hx
    have hin : (x.2.slice q).Contains ptr := by simpa using List.find?_some hfind
    obtain ⟨_, _, hc⟩ := hxs.linked.get (a := x.1) (v := x.2) hx
    rw [← heq] at hin
    exact .inl ⟨x.1, R, rfl, hR, ⟨_, hc, heq.symm⟩, hin⟩

theorem Inv.address_unique (h : Inv s) {p : Fin C.size}
    (hc : (s.lists p).cells a = some c) (hc' : (s.lists p).cells a' = some c')
    (hval : c.val = c'.val) : a = a' := by
  obtain ⟨xs, hxs, hmreg⟩ := h.holds p
  have hids : ((s.on p).map fun R => R.win.id).Nodup :=
    h.ids.sublist (List.filter_sublist.map _)
  have hnd : (xs.map Prod.snd).Nodup := by
    rw [hmreg]
    refine List.Nodup.of_map (fun m : Gmr => m.window.map Win.id) ?_
    rw [List.map_map]
    simpa [Function.comp_def, Cluster.mreg] using hids.map (Option.some_injective _)
  have heq := List.inj_on_of_nodup_map hnd (hxs.mem hc) (hxs.mem hc') hval
  exact congrArg Prod.fst heq

theorem State.Finds.unique (h : Inv s) {p q : Fin C.size} (hR : s.Finds p q ptr a R)
    (hR' : s.Finds p q ptr a' R') : R = R' ∧ a = a' := by
  obtain ⟨hon, ⟨c, hc, hval⟩, hin⟩ := hR
  obtain ⟨hon', ⟨c', hc', hval'⟩, hin'⟩ := hR'
  obtain rfl := h.eq_of_contains (State.mem_on.mp hon).1 (State.mem_on.mp hon').1 hin hin'
  exact ⟨rfl, h.address_unique hc hc' (hval.trans hval'.symm)⟩

theorem Inv.lookup (h : Inv s) (hR : R ∈ s.live) (hp : p.val ∈ R.win.comm.ranks) {q : Fin C.size}
    (hin : (R.slice q).Contains ptr) :
    ∃ a c, (s.lists p).lookup ptr q = .ok (some a) ∧ (s.lists p).cells a = some c ∧
      c.val = C.mreg R p := by
  rcases h.lookup_cases p q ptr with ⟨a, R', hl, hon, ⟨c, hc, hval⟩, hin'⟩ | ⟨-, hnone⟩
  · obtain rfl := h.eq_of_contains hR (State.mem_on.mp hon).1 hin hin'
    exact ⟨a, c, hl, hc, hval⟩
  · exact absurd hin (hnone R (State.mem_on.mpr ⟨hR, hp⟩))

theorem Inv.lookup_perm (h : Inv s) (p q : Fin C.size) (ptr : Int) {regions : List Gmr}
    (hperm : ((s.on p).map (C.mreg · p)).Perm regions) :
    lookupIn ptr q regions =
      ((s.lists p).lookup ptr q).map fun r => r.bind fun a => ((s.lists p).cells a).map Cell.val := by
  obtain ⟨xs, hxs, hval⟩ := h.holds p
  have hn : ∀ mreg ∈ (s.on p).map (C.mreg · p), q.val < mreg.nslices := by
    intro mreg hmem
    obtain ⟨R, -, rfl⟩ := List.mem_map.mp hmem
    exact q.isLt
  have hn' : ∀ x ∈ xs, q.val < x.2.nslices := fun x hx =>
    hn x.2 (hval ▸ List.mem_map_of_mem hx)
  rw [← GmrList.lookup_lookupIn hxs hn', hval, lookupIn_eq_find ptr hn,
    lookupIn_eq_find ptr fun mreg hmem => hn mreg (hperm.mem_iff.mpr hmem)]
  refine congrArg Except.ok (find?_perm hperm ?_).symm
  intro m hm m' hm' hin hin'
  obtain ⟨R, hR, rfl⟩ := List.mem_map.mp hm
  obtain ⟨R', hR', rfl⟩ := List.mem_map.mp hm'
  rw [h.eq_of_contains (State.mem_on.mp hR).1 (State.mem_on.mp hR').1 (of_decide_eq_true hin)
    (of_decide_eq_true hin')]

/-- The slices of a new region: what each member contributed, with a null base if it
is empty, and nothing for the other processes. -/
def Alloc.Scattered (C : Cluster) (A : Alloc) (R : Region) : Prop :=
  ∀ w < C.size,
    (∀ g, A.group.comm.rankOf w = some g → ∃ size base, A.sizes[g]? = some size ∧
      A.bases[g]? = some base ∧ R.slice w = ⟨if size = 0 then 0 else base, size⟩) ∧
    (w ∉ A.group.comm.ranks → R.slice w = ⟨0, 0⟩)

theorem create_scattered (hn : next s (.create A) = some t) :
    (A.maxLocalSize = 0 ∧ t = s) ∨ ∃ R, t.live = s.live ++ [R] ∧ A.Scattered C R := by
  simp only [next, Option.ite_none_right_eq_some] at hn
  obtain ⟨hA, hn⟩ := hn
  rcases gmrCreate_cases (eq_ok_of_toOption hn) with hnone | ⟨-, -, hlive, -⟩
  · exact .inl hnone
  · refine .inr ⟨_, hlive, fun w _ => ⟨fun g hg => ?_, A.region_slice_outside s.wins⟩⟩
    obtain ⟨size, base, hsize, hbase, -, hslice⟩ := A.region_slice hA s.wins hg
    exact ⟨size, base, hsize, hbase, hslice⟩

/-- In every reachable state a lookup returns the region of the caller whose slice on the
process contains the address, which is the only one, and null if there is none; the order
of the list is of no matter. The slices it looks at are those the members contributed. -/
theorem lookup_exact (h : (system C).Reachable s) (p q : Fin C.size) (ptr : Int) :
    (∃ r, (s.lists p).lookup ptr q = .ok r ∧
      (∀ a, r = some a ↔ ∃ R, s.Finds p q ptr a R) ∧
      (r = none ↔ ∀ R ∈ s.on p, ¬ (R.slice q).Contains ptr) ∧
      ∀ regions, ((s.on p).map (C.mreg · p)).Perm regions →
        lookupIn ptr q regions = .ok (r.bind fun a => ((s.lists p).cells a).map Cell.val)) ∧
    (∀ R ∈ s.on p, ∀ R' ∈ s.on p, (R.slice q).Contains ptr → (R'.slice q).Contains ptr → R = R') ∧
    ∀ A t, next s (.create A) = some t →
      (A.maxLocalSize = 0 ∧ t = s) ∨ ∃ R, t.live = s.live ++ [R] ∧ A.Scattered C R := by
  have hi := inv_of_reachable h
  refine ⟨?_, fun R hR R' hR' hin hin' => ?_, fun A t hn => create_scattered hn⟩
  · rcases hi.lookup_cases p q ptr with ⟨a, R, hl, hfind⟩ | ⟨hl, hnone⟩
    · refine ⟨some a, hl, fun a' => ⟨?_, ?_⟩, ⟨nofun, ?_⟩, fun regions hperm => ?_⟩
      · rintro ⟨⟩
        exact ⟨R, hfind⟩
      · rintro ⟨R', hfind'⟩
        rw [(hfind.unique hi hfind').2]
      · intro hnone
        exact absurd hfind.2.2 (hnone R hfind.1)
      · rw [hi.lookup_perm p q ptr hperm, hl]
        rfl
    · refine ⟨none, hl, fun a' => ⟨nofun, ?_⟩, ⟨fun _ => hnone, fun _ => rfl⟩, fun regions hperm => ?_⟩
      · rintro ⟨R', hon, -, hin⟩
        exact absurd hin (hnone R' hon)
      · rw [hi.lookup_perm p q ptr hperm, hl]
        rfl
  · exact hi.eq_of_contains (State.mem_on.mp hR).1 (State.mem_on.mp hR').1 hin hin'

def pairCluster : Cluster := ⟨pairWorld.comm, pairWorld.undefined, fun _ => defaultState, rfl, by decide⟩

def oneSided : Alloc := ⟨⟨pairWorld.comm, selfComm⟩, [0, 8], [0, 4096], fun _ => 0, true⟩

theorem reachable_oneSided :
    ∃ s : State pairCluster, (system pairCluster).Reachable s ∧
      s.live = [oneSided.region pairCluster 0] := by
  have hrun : (next (start pairCluster) (.create oneSided)).map State.live =
      some [oneSided.region pairCluster 0] := by decide +kernel
  obtain ⟨s, hs, hlive⟩ := Option.map_eq_some_iff.mp hrun
  have hnext : (system pairCluster).next (start pairCluster) (.create oneSided) = some s := hs
  exact ⟨s, .step (.init rfl) hnext, hlive⟩

theorem lookup_exact_oneSided :
    ∃ s : State pairCluster, (system pairCluster).Reachable s ∧
      s.live = [oneSided.region pairCluster 0] ∧
      ∃ r, (s.lists ⟨0, by decide⟩).lookup 4100 1 = .ok (some r) := by
  obtain ⟨s, hreach, hlive⟩ := reachable_oneSided
  obtain ⟨⟨r, hr, -, hnone, -⟩, -⟩ := lookup_exact hreach ⟨0, by decide⟩ ⟨1, by decide⟩ 4100
  refine ⟨s, hreach, hlive, ?_⟩
  cases r with
  | some a => exact ⟨a, hr⟩
  | none =>
    have hon : oneSided.region pairCluster 0 ∈ s.on ⟨0, by decide⟩ :=
      State.mem_on.mpr ⟨by simp [hlive], by decide⟩
    exact absurd (by decide) (hnone.mp rfl _ hon)

end Regions

end ArmciMpi
