import ArmciMpi.Transfer.Dispatch

/-!
# What calls are for

A `Transfer` is what a caller asks for: pairs of local and remote segments, the
kind of the operation and what happens to the elements on the way. `Does` says
that actions carry it out: a put or accumulate, a get, or a plain copy when the
remote memory is the caller's own. Nothing races in such actions, and outside
scratch memory they do what was asked, and with full flushes they leave
nothing in flight.
-/

namespace ArmciMpi

open Lib Script

/-- Segments of `count` elements by local and remote address; `fill` is applied to
the elements of the source. The local segments are parts of one buffer or buffers of
their own. -/
structure Transfer where
  kind : RmaKind
  base : BaseType
  count : Nat
  fill : List UInt8 → List UInt8
  whole : Bool
  segs : List (Int × Int)

namespace Transfer

def bytes (t : Transfer) : Nat := t.count * t.base.size

def ends (me proc : Nat) (t : Transfer) : List (Loc × Loc) :=
  (t.segs.flatMap (segPairs t.base.size t.count)).map (t.kind.ends me proc)

def effect (me proc : Nat) (t : Transfer) : List (Xfer Loc UInt8) :=
  moveAll (fun x d => t.kind.fn t.base (t.fill x) d) t.base.size (t.ends me proc)

structure InRange (env : Env) (proc : Nat) (mreg : Gmr) (t : Transfer) : Prop where
  region : gmrLookup env ((t.segs.map Prod.snd).headD 0) proc = .ok (some mreg)
  holds : ∀ s ∈ t.segs, mreg.Holds proc s.2 t.bytes

/-- What a caller has to respect: no target meets another target or a source, and
nothing is in scratch memory. -/
structure Proper (env : Env) (proc : Nat) (arena : Set Int) (t : Transfer) : Prop where
  fits : t.kind.Fits t.base
  nonempty : t.segs ≠ []
  nonnull : ∀ s ∈ t.segs, s.1 ≠ 0
  start : ∀ s ∈ t.segs, s.1 ∉ arena
  user : ∀ s ∈ t.segs, block (env.me, s.1) t.bytes ⊆ (scratch env.me arena)ᶜ
  outside : ∀ s ∈ t.segs, block (proc, s.2) t.bytes ⊆ (scratch env.me arena)ᶜ
  spread : Spread t.bytes (t.segs.map (t.kind.ends env.me proc))
  fill_length : ∀ x, x.length = t.base.size → (t.fill x).length = t.base.size
  fill_get : t.kind = .get → t.fill = id

/-- How temporary buffers are used: with copying, a segment is used in place only if
a lookup found it, or another part of its buffer, to be private; what was allocated is
scratch memory, and exactly that is released. -/
structure Temps (env : Env) (arena : Set Int) (t : Transfer) (segs : List Seg) (acts : List Act) :
    Prop where
  guard : env.cfg.shrBufMethod = .copy → ∀ s ∈ segs, s.buf = s.user → ∃ s' ∈ segs,
    gmrLookup env s'.user env.me = .ok none ∧ (t.whole = false → s' = s)
  mine : ∀ p ∈ allocs acts, p ∈ arena
  tidy : (frees acts).Perm (allocs acts)

inductive Does (env : Env) (proc : Nat) (arena : Set Int) (t : Transfer) : List Act → Prop
  | send {acts} (segs : List Seg) (hsegs : segs.map Seg.asked = t.segs) (hkind : t.kind ≠ .get)
      (htemps : t.Temps env arena segs acts)
      (hcall : SendCall env t.kind t.base t.count proc arena t.fill segs acts) :
      Does env proc arena t acts
  | get {acts} (segs : List Seg) (hsegs : segs.map Seg.asked = t.segs) (hkind : t.kind = .get)
      (hplace : ∀ s ∈ segs,
        s.buf = s.user ∨ block (env.me, s.buf) t.count ⊆ scratch env.me arena)
      (hbufs : segs.Pairwise fun s s' =>
        Disjoint (block (env.me, s.buf) t.count) (block (env.me, s'.buf) t.count))
      (htemps : t.Temps env arena segs acts)
      (hcall : GetCall env t.count proc segs acts) : Does env proc arena t acts
  | copy (seg : Int × Int) (hsegs : t.segs = [seg]) (hkind : t.kind ≠ .acc) (hfill : t.fill = id)
      (hself : proc = env.me) : Does env proc arena t
        [.copy (t.kind.ends env.me proc seg).1.2 (t.kind.ends env.me proc seg).2.2 t.count]

section
variable {env : Env} {proc : Nat} {arena : Set Int} {t : Transfer} {acts : List Act}

theorem Proper.sendOk (hp : t.Proper env proc arena) {segs : List Seg}
    (hsegs : segs.map Seg.asked = t.segs) (hkind : t.kind ≠ .get) :
    SendOk env t.kind t.base t.count proc arena t.fill segs where
  kind_ne := hkind
  spread := hsegs ▸ hp.spread
  outside := fun s hs => hp.outside s.asked (hsegs ▸ List.mem_map_of_mem hs)
  fill_length := hp.fill_length

theorem Proper.base_get (hp : t.Proper env proc arena) (hkind : t.kind ≠ .acc) : t.base = .byte :=
  hp.fits.resolve_left hkind

theorem bytes_byte (h : t.base = .byte) : t.bytes = t.count := by
  rw [bytes, h]
  exact Nat.mul_one _

theorem Proper.getOk (hp : t.Proper env proc arena) {segs : List Seg}
    (hsegs : segs.map Seg.asked = t.segs) (hkind : t.kind = .get)
    (hplace : ∀ s ∈ segs, s.buf = s.user ∨ block (env.me, s.buf) t.count ⊆ scratch env.me arena)
    (hbufs : segs.Pairwise fun s s' =>
      Disjoint (block (env.me, s.buf) t.count) (block (env.me, s'.buf) t.count)) :
    GetOk env t.count proc arena segs := by
  have hbytes := bytes_byte (hp.base_get (by rw [hkind]; decide))
  refine ⟨?_, fun s hs => ?_, fun s hs => ?_, hplace, hbufs⟩
  · exact hsegs ▸ hbytes ▸ hkind ▸ hp.spread
  · exact hbytes ▸ hp.outside s.asked (hsegs ▸ List.mem_map_of_mem hs)
  · exact hbytes ▸ hp.user s.asked (hsegs ▸ List.mem_map_of_mem hs)

theorem Does.free (h : t.Does env proc arena acts) (hp : t.Proper env proc arena) :
    RaceFree ∅ (actSteps env.me acts) := by
  cases h with
  | send segs hsegs hkind htemps hcall => exact hcall.free (hp.sendOk hsegs hkind)
  | get segs hsegs hkind hplace hbufs htemps hcall => exact hcall.free (hp.getOk hsegs hkind hplace hbufs)
  | copy seg hsegs hkind hfill hself => exact ⟨fun p hmem => hmem.elim, trivial⟩

theorem Does.after_empty (h : t.Does env proc arena acts) (hflush : env.cfg.endToEndFlush = true) :
    after ∅ (actSteps env.me acts) = ∅ := by
  cases h with
  | send segs hsegs hkind htemps hcall => exact hcall.after_empty hflush
  | get segs hsegs hkind hplace hbufs htemps hcall => exact hcall.after_empty
  | copy seg hsegs hkind hfill hself => rfl

theorem Does.after_get (h : t.Does env proc arena acts) (hkind : t.kind = .get) :
    after ∅ (actSteps env.me acts) = ∅ := by
  cases h with
  | send segs hsegs hne htemps hcall => exact absurd hkind hne
  | get segs hsegs hkind hplace hbufs htemps hcall => exact hcall.after_empty
  | copy seg hsegs hkind hfill hself => rfl

theorem moved_move {kind : RmaKind} (hkind : kind ≠ .acc) {me proc n : Nat} {seg : Int × Int}
    (hspread : Spread n [kind.ends me proc seg]) (m : Mem) :
    Moved kind .byte me proc n [seg] m
      (Xfer.applyAll (moveAll (fun x _ => x) n [kind.ends me proc seg]) m) := by
  have hsize : n * BaseType.byte.size = n := Nat.mul_one n
  constructor
  · intro s hs j hj
    obtain rfl := List.mem_singleton.mp hs
    have hbytes := moveAll_bytes (fun x _ hx _ => hx) hspread m List.mem_cons_self
    have hpart := bytesAt_part (i := j) (k := 1) hj hbytes
    have hfn : kind.fn .byte = fun x _ => x := by
      cases kind with
      | put | get => rfl
      | acc => exact absurd rfl hkind
    rw [hfn]
    simpa [Loc.shift, BaseType.size] using hpart
  · intro l hl
    refine moveAll_frame (s := {l}) (fun e he => ?_) m rfl
    obtain rfl := List.mem_singleton.mp he
    exact Set.disjoint_singleton_right.mpr (hsize ▸ hl seg List.mem_cons_self)

theorem applyAll_segment {kind : RmaKind} (hkind : kind ≠ .acc) {me proc n : Nat} {seg : Int × Int}
    (hspread : Spread n [kind.ends me proc seg]) (m : Mem) :
    Xfer.applyAll (moveAll (kind.fn .byte) BaseType.byte.size
      ((segPairs BaseType.byte.size n seg).map (kind.ends me proc))) m =
      (move (fun x _ => x) n (kind.ends me proc seg).1 (kind.ends me proc seg).2).apply m := by
  have hspread' : Spread (n * BaseType.byte.size) ([seg].map (kind.ends me proc)) := by
    rw [show n * BaseType.byte.size = n from Nat.mul_one n]
    exact hspread
  have heq := (moved_moveAll hspread' m).unique (moved_move hkind hspread m)
  rwa [List.flatMap_cons, List.flatMap_nil, List.append_nil] at heq

theorem moved_copy {kind : RmaKind} (hkind : kind ≠ .acc) {me n : Nat} {seg : Int × Int}
    (hspread : Spread (n * BaseType.byte.size) [kind.ends me me seg]) (m : Mem) :
    Moved kind .byte me me n [seg] m (Xfer.applyAll (actXfers me
      [.copy (kind.ends me me seg).1.2 (kind.ends me me seg).2.2 n]) m) := by
  have hends : kind.ends me me seg =
      ((me, (kind.ends me me seg).1.2), (me, (kind.ends me me seg).2.2)) := by
    cases kind <;> rfl
  have hx : actXfers me [.copy (kind.ends me me seg).1.2 (kind.ends me me seg).2.2 n] =
      moveAll (fun x _ => x) n [kind.ends me me seg] := by
    rw [hends]
    rfl
  rw [show n * BaseType.byte.size = n from Nat.mul_one n] at hspread
  rw [hx]
  exact moved_move hkind hspread m

theorem Does.effect_eqOn (h : t.Does env proc arena acts) (hp : t.Proper env proc arena) (m : Mem) :
    Set.EqOn (Xfer.applyAll (actXfers env.me acts) m)
      (Xfer.applyAll (t.effect env.me proc) m) (scratch env.me arena)ᶜ := by
  cases h with
  | send segs hsegs hkind htemps hcall =>
    have heffect := hcall.effect (hp.sendOk hsegs hkind) m
    rwa [sendEffect, hsegs] at heffect
  | get segs hsegs hkind hplace hbufs htemps hcall =>
    have heffect := hcall.effect (hp.getOk hsegs hkind hplace hbufs) m
    have hbase := hp.base_get (by rw [hkind]; decide)
    rw [getEffect, hsegs] at heffect
    rwa [effect, ends, hbase, hkind, hp.fill_get hkind]
  | copy seg hsegs hkind hfill hself =>
    subst hself
    have hbase := hp.base_get hkind
    have hspread := hp.spread
    have hbytes : t.bytes = t.count * BaseType.byte.size := by rw [bytes, hbase]
    rw [hsegs, hbytes] at hspread
    have hasked := moved_moveAll hspread m
    have heq := (moved_copy hkind hspread m).unique hasked
    rw [heq, effect, ends, hbase, hsegs, hfill]
    exact fun l _ => rfl

theorem Proper.effect_congr (hp : t.Proper env proc arena) {m m' : Mem}
    (h : Set.EqOn m m' (scratch env.me arena)ᶜ) :
    Set.EqOn (Xfer.applyAll (t.effect env.me proc) m) (Xfer.applyAll (t.effect env.me proc) m')
      (scratch env.me arena)ᶜ := by
  have hends : ∀ s ∈ t.segs,
      block (t.kind.ends env.me proc s).1 t.bytes ⊆ (scratch env.me arena)ᶜ ∧
        block (t.kind.ends env.me proc s).2 t.bytes ⊆ (scratch env.me arena)ᶜ := by
    intro s hs
    cases hk : t.kind with
    | put | acc => exact ⟨hp.user s hs, hp.outside s hs⟩
    | get => exact ⟨hp.outside s hs, hp.user s hs⟩
  refine Xfer.applyAll_congr (fun x hx => ?_) h
  obtain ⟨e, he, rfl⟩ := List.mem_map.mp hx
  obtain ⟨s, hs, j, hj, rfl⟩ := mem_elems.mp he
  exact ⟨(shift_subset hj _).trans (hends s hs).1, (shift_subset hj _).trans (hends s hs).2⟩

end

end Transfer

end ArmciMpi
