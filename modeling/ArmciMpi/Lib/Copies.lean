import ArmciMpi.Lib.Meeting
import Mathlib.Data.List.Nodup
import Mathlib.Logic.Nontrivial.Basic

/-!
# Memory in two copies

Every process has a part of the memory, in a private copy, which it loads from
and stores to, and a public copy, which all processes read and update from
outside. What is stored becomes public, and what is updated from outside
becomes private, when the owner synchronises a region, or at any time before.
The copies are kept by lines: if something was stored in a line, the private
copy of the whole line wins. In a unified region the copies are one.

Between a store and an access from outside to its line there must be as many
phases as `lag` says, or one if the owner has synchronised the region itself after
the store, and one phase between an update and any access. `coherent_iff` says
for which `lag` all accesses see what was written last.
-/

namespace Lib.Copies

variable {P R L C V : Type}

-- ------------------------------
-- The memory
-- ------------------------------

/-- The last write to a cell: in which phase of the writer, whether it was a store of the owner
or an update from outside, and whether the owner has synchronised the cell in a phase since. -/
structure Write where
  phase : Nat
  store : Bool
  ended : Bool

def Write.delay (w : Write) (lag : Nat) : Nat := if w.ended then 1 else lag

structure Pending (P C V : Type) where
  proc : P
  cell : C
  change : V → V

/-- The two copies, the lines with something stored since they were synchronised and the
updates in flight; and of the history, what was written last to each cell, the last store to
each line, and the first phase after all updates of each line. -/
structure State (P R L C V : Type) where
  clock : Clock P R
  priv : C → V
  pub : C → V
  marked : L → Bool
  pending : List (Pending P C V)
  val : C → V
  last : C → Option Write
  lineStore : L → Option Write
  putEnd : L → Nat

def start (mem : C → V) : State P R L C V where
  clock := ⟨fun _ => .running, fun _ => 0⟩
  priv := mem
  pub := mem
  marked _ := false
  pending := []
  val := mem
  last _ := none
  lineStore _ := none
  putEnd _ := 0

namespace State

structure CanLoad (D : Layout P R L C) (s : State P R L C V) (p : P) (c : C) : Prop where
  running : s.clock.stage p = .running
  home : D.home (D.line c) = p
  last : ∀ w, s.last c = some w → w.store = false → w.phase < s.clock.done p

structure CanGet (D : Layout P R L C) (lag : R → Nat) (s : State P R L C V) (p : P) (c : C) :
    Prop where
  running : s.clock.stage p = .running
  last : ∀ w, s.last c = some w →
    w.phase + (if w.store then w.delay (lag (D.region (D.line c))) else 1) ≤ s.clock.done p

variable [DecidableEq P] [DecidableEq R] [DecidableEq L] [DecidableEq C]

def store (D : Layout P R L C) (s : State P R L C V) (p : P) (c : C) (v : V) : State P R L C V :=
  let unified := D.unified (D.region (D.line c))
  { s with
    priv := Function.update s.priv c v
    pub := if unified then Function.update s.pub c v else s.pub
    marked := if unified then s.marked else Function.update s.marked (D.line c) true
    val := Function.update s.val c v
    last := Function.update s.last c (some ⟨s.clock.done p, true, false⟩)
    lineStore := Function.update s.lineStore (D.line c) (some ⟨s.clock.done p, true, false⟩) }

def update (D : Layout P R L C) (s : State P R L C V) (p : P) (c : C) (f : V → V) :
    State P R L C V :=
  { s with
    pending := ⟨p, c, f⟩ :: s.pending
    val := Function.update s.val c (f (s.val c))
    last := Function.update s.last c (some ⟨s.clock.done p, false, false⟩)
    putEnd := Function.update s.putEnd (D.line c) (max (s.putEnd (D.line c)) (s.clock.done p + 1)) }

def apply (D : Layout P R L C) (s : State P R L C V) (x : Pending P C V)
    (rest : List (Pending P C V)) : State P R L C V :=
  let v := x.change (s.pub x.cell)
  { s with
    pub := Function.update s.pub x.cell v
    priv := if D.unified (D.region (D.line x.cell)) then Function.update s.priv x.cell v else s.priv
    pending := rest }

def publish (s : State P R L C V) (c : C) : State P R L C V :=
  { s with pub := Function.update s.pub c (s.priv c) }

def refresh (s : State P R L C V) (c : C) : State P R L C V :=
  { s with priv := Function.update s.priv c (s.pub c) }

def sync (D : Layout P R L C) (s : State P R L C V) (p : P) (r : R) : State P R L C V :=
  let Mine (l : L) := D.home l = p ∧ D.region l = r
  { s with
    priv := fun c =>
      if Mine (D.line c) ∧ s.marked (D.line c) = false then s.pub c else s.priv c
    pub := fun c =>
      if Mine (D.line c) ∧ s.marked (D.line c) = true then s.priv c else s.pub c
    marked := fun l => if Mine l then false else s.marked l }

def access (D : Layout P R L C) (s : State P R L C V) (p : P) (r : R) : State P R L C V :=
  let Mine (l : L) := D.home l = p ∧ D.region l = r
  let close (l : L) (w : Option Write) := if Mine l then w.map ({ · with ended := true }) else w
  { s.sync D p r with
    last := fun c => close (D.line c) (s.last c)
    lineStore := fun l => close l (s.lineStore l) }

def after (D : Layout P R L C) (s : State P R L C V) (p : P) (e : Event R) (t : Clock P R) :
    State P R L C V :=
  match e with
  | .sync r => { s.sync D p r with clock := t }
  | .quiet | .flush _ => { s with clock := t }

inductive Step (D : Layout P R L C) (lag : R → Nat) :
    State P R L C V → State P R L C V → Prop
  | store (s p c v) (hload : CanLoad D s p c) (hline : s.putEnd (D.line c) ≤ s.clock.done p) :
      Step D lag s (s.store D p c v)
  | update (s p c f) (hget : CanGet D lag s p c) (hr : D.region (D.line c) ∈ D.flushes p)
      (hline : ∀ w, s.lineStore (D.line c) = some w →
        w.phase + w.delay (lag (D.region (D.line c))) ≤ s.clock.done p) :
      Step D lag s (s.update D p c f)
  | apply (s x l₁ l₂) (h : s.pending = l₁ ++ x :: l₂) : Step D lag s (s.apply D x (l₁ ++ l₂))
  | access (s p r) (hrun : s.clock.stage p = .running) (hr : D.accesses p r) :
      Step D lag s (s.access D p r)
  | publish (s c) (h : s.marked (D.line c) = true) : Step D lag s (s.publish c)
  | refresh (s c) (h : s.marked (D.line c) = false) : Step D lag s (s.refresh c)
  | tick (s p e t) (h : Clock.Tick D s.clock p e t)
      (hflush : ∀ r, e = .flush r → ∀ x ∈ s.pending, x.proc = p → D.region (D.line x.cell) ≠ r) :
      Step D lag s (s.after D p e t)

end State

/-- Every load and every read from outside sees what was written last. -/
def Coherent [DecidableEq P] [DecidableEq R] [DecidableEq L] [DecidableEq C]
    (D : Layout P R L C) (lag : R → Nat) (mem : C → V) : Prop :=
  ∀ s, Relation.ReflTransGen (State.Step D lag) (start mem) s → ∀ p c,
    (s.CanLoad D p c → s.priv c = s.val c) ∧ (s.CanGet D lag p c → s.pub c = s.val c)

def Layout.Enough (D : Layout P R L C) (lag : R → Nat) : Prop :=
  ∀ l, D.unified (D.region l) = true ∨
    D.region l ∈ D.syncs (D.home l) ∧ D.needed ≤ lag (D.region l)

-- ------------------------------
-- The invariant
-- ------------------------------

/-- The owner has synchronised the line at the end of phase `k`. -/
def Layout.Synced (D : Layout P R L C) (t : Clock P R) (l : L) (k : Nat) : Prop :=
  t.Reached (Stage.Synced (D.region l)) (D.home l) k

namespace State

structure Past (D : Layout P R L C) (lag : R → Nat) (s : State P R L C V) : Prop where
  clock : s.clock.Inv D
  plain : ∀ l, D.unified (D.region l) = true → s.marked l = false
  mark : ∀ l, s.marked l = true →
    ∃ w, s.lineStore l = some w ∧ w.ended = false ∧ ¬ D.Synced s.clock l w.phase
  order : ∀ l w, s.lineStore l = some w →
    s.putEnd l ≤ w.phase ∨ w.ended = true ∨ w.phase + lag (D.region l) < s.putEnd l
  stores : ∀ l w, s.lineStore l = some w → w.phase ≤ s.clock.done (D.home l)
  puts : ∀ c w, s.last c = some w → w.store = false → w.phase < s.putEnd (D.line c)
  putters : ∀ l, ∃ q, s.putEnd l ≤ s.clock.done q + 1

structure Values (D : Layout P R L C) (s : State P R L C V) : Prop where
  fresh : ∀ c, s.last c = none → s.priv c = s.val c ∧ s.pub c = s.val c
  stored : ∀ c w, s.last c = some w → w.store = true → s.priv c = s.val c ∧
    (s.marked (D.line c) = false ∨ w.ended = true ∨ D.Synced s.clock (D.line c) w.phase →
      s.pub c = s.val c)
  updated : ∀ c w, s.last c = some w → w.store = false →
    ((∀ x ∈ s.pending, x.cell ≠ c) → s.pub c = s.val c) ∧
    (D.unified (D.region (D.line c)) = false → D.Synced s.clock (D.line c) w.phase →
      s.priv c = s.val c)
  inflight : ∀ x ∈ s.pending, x.change (s.pub x.cell) = s.val x.cell ∧
    D.region (D.line x.cell) ∈ D.flushes x.proc ∧ ∃ w, s.last x.cell = some w ∧
      w.store = false ∧
      ¬ s.clock.Reached (Stage.Cleared (D.region (D.line x.cell))) x.proc w.phase
  single : (s.pending.map Pending.cell).Nodup
  same : ∀ c, D.unified (D.region (D.line c)) = true → s.priv c = s.pub c

section
variable {D : Layout P R L C} {lag : R → Nat} {s : State P R L C V} {c : C} {w : Write}

theorem Past.start (mem : C → V) : Past D lag (start mem : State P R L C V) where
  clock := ⟨fun _ _ _ h => by simp [Clock.Reached, Copies.start, Stage.Left] at h,
    fun _ _ _ _ h => by simp [Copies.start] at h⟩
  plain _ _ := rfl
  mark _ h := by simp [Copies.start] at h
  order _ _ h := by simp [Copies.start] at h
  stores _ _ h := by simp [Copies.start] at h
  puts _ _ h := by simp [Copies.start] at h
  putters l := ⟨D.home l, by simp [Copies.start]⟩

theorem Values.start (mem : C → V) : Values D (start mem : State P R L C V) where
  fresh _ _ := ⟨rfl, rfl⟩
  stored _ _ h := by simp [Copies.start] at h
  updated _ _ h := by simp [Copies.start] at h
  inflight _ h := by simp [Copies.start] at h
  single := List.nodup_nil
  same _ _ := rfl

theorem Past.separate (h : Past D lag s) {l : L} (hmark : s.marked l = true) :
    D.unified (D.region l) = false := by
  by_contra hu
  rw [h.plain l (Bool.eq_true_of_not_eq_false hu)] at hmark
  cases hmark

theorem Past.synced_of_marked (h : Past D lag s) (hlag : D.Enough lag)
    (hmark : s.marked (D.line c) = true) (hw : s.last c = some w) (hput : w.store = false) :
    D.Synced s.clock (D.line c) w.phase := by
  obtain ⟨w', hw', hended, hnot⟩ := h.mark _ hmark
  obtain ⟨-, hneed⟩ := (hlag (D.line c)).resolve_left (by simp [h.separate hmark])
  have hphase := h.puts c w hw hput
  rcases h.order _ w' hw' with hle | hclosed | hlt
  · have := h.stores _ w' hw'
    exact .inl (by omega)
  · exact absurd (hended.symm.trans hclosed) Bool.false_ne_true
  · obtain ⟨q, hq⟩ := h.putters (D.line c)
    have hlate : w'.phase + D.needed ≤ s.clock.done q := by omega
    exact absurd (h.clock.synced hlate _ _) hnot

theorem Values.unmarked (h : Values D s) (hpast : Past D lag s) (hlag : D.Enough lag)
    {x : Pending P C V} (hx : x ∈ s.pending) : s.marked (D.line x.cell) = false := by
  obtain ⟨-, -, w, hw, hput, hnot⟩ := h.inflight x hx
  by_contra hmark
  have hsync := hpast.synced_of_marked hlag (Bool.eq_true_of_not_eq_false hmark) hw hput
  exact hnot (hpast.clock.cleared_of_synced hsync _ _)

theorem Values.applied (h : Values D s) (hw : s.last c = some w)
    (hclear : ∀ r p, s.clock.Reached (Stage.Cleared r) p w.phase) :
    ∀ x ∈ s.pending, x.cell ≠ c := by
  rintro x hx rfl
  obtain ⟨-, -, w', hw', -, hnot⟩ := h.inflight x hx
  cases hw.symm.trans hw'
  exact hnot (hclear _ _)

theorem Values.load (h : Values D s) (hpast : Past D lag s) {p : P} (hload : s.CanLoad D p c) :
    s.priv c = s.val c := by
  cases hw : s.last c with
  | none => exact (h.fresh c hw).1
  | some w =>
    cases hstore : w.store with
    | true => exact (h.stored c w hw hstore).1
    | false =>
      have hlt := hload.last w hw hstore
      cases hu : D.unified (D.region (D.line c)) with
      | true =>
        rw [h.same c hu]
        exact (h.updated c w hw hstore).1 (h.applied hw fun r q => hpast.clock.cleared hlt r q)
      | false =>
        refine (h.updated c w hw hstore).2 hu (.inl ?_)
        rw [hload.home]
        exact hlt

theorem Values.get (h : Values D s) (hpast : Past D lag s) (hlag : D.Enough lag) {p : P}
    (hget : s.CanGet D lag p c) : s.pub c = s.val c := by
  cases hw : s.last c with
  | none => exact (h.fresh c hw).2
  | some w =>
    have hle := hget.last w hw
    cases hstore : w.store with
    | true =>
      rw [if_pos hstore, Write.delay] at hle
      refine (h.stored c w hw hstore).2 ?_
      rcases hlag (D.line c) with hu | ⟨-, hneed⟩
      · exact .inl (hpast.plain _ hu)
      · split at hle
        · next hended => exact .inr (.inl hended)
        · exact .inr (.inr (hpast.clock.synced (p := p) (by omega) _ _))
    | false =>
      rw [if_neg (by simp [hstore])] at hle
      exact (h.updated c w hw hstore).1 (h.applied hw fun r q => hpast.clock.cleared hle r q)

end

-- ------------------------------
-- Steps
-- ------------------------------

section
variable {D : Layout P R L C} {lag : R → Nat} {s : State P R L C V} {c : C}

theorem Past.congr (h : Past D lag s) {t : State P R L C V} (hclock : t.clock = s.clock)
    (hmarked : t.marked = s.marked) (hlast : t.last = s.last)
    (hstore : t.lineStore = s.lineStore) (hput : t.putEnd = s.putEnd) : Past D lag t := by
  obtain ⟨clock, plain, mark, order, stores, puts, putters⟩ := h
  simp only [← hclock, ← hmarked, ← hlast, ← hstore, ← hput] at *
  exact ⟨clock, plain, mark, order, stores, puts, putters⟩

variable [DecidableEq C]

theorem Values.apply (h : Values D s) {x : Pending P C V} {l₁ l₂ : List (Pending P C V)}
    (hx : s.pending = l₁ ++ x :: l₂) : Values D (s.apply D x (l₁ ++ l₂)) := by
  have hsub : ∀ y ∈ l₁ ++ l₂, y ∈ s.pending := by
    intro y hy
    rw [hx]
    exact List.mem_append.mpr ((List.mem_append.mp hy).imp_right (List.mem_cons_of_mem x))
  have hnodup := h.single
  rw [hx, List.map_append, List.map_cons, List.nodup_middle, List.nodup_cons, ← List.map_append]
    at hnodup
  have hother : ∀ y ∈ l₁ ++ l₂, y.cell ≠ x.cell := fun y hy heq =>
    hnodup.1 (heq ▸ List.mem_map_of_mem hy)
  obtain ⟨hchange, -, w, hw, hput, -⟩ := h.inflight x (by simp [hx])
  have hpriv : ∀ c, c ≠ x.cell → (s.apply D x (l₁ ++ l₂)).priv c = s.priv c := by
    intro c hc
    by_cases hu : D.unified (D.region (D.line x.cell)) = true <;> simp [State.apply, hu, hc]
  refine ⟨fun c hnone => ?_, fun c w' hw' hstore => ?_, fun c w' hw' hput' => ?_, fun y hy => ?_,
    hnodup.2, fun c hu => ?_⟩
  · have hc : c ≠ x.cell := by
      rintro rfl
      cases hw.symm.trans hnone
    rw [hpriv c hc]
    simpa [State.apply, hc] using h.fresh c hnone
  · have hc : c ≠ x.cell := by
      rintro rfl
      cases hw.symm.trans hw'
      exact absurd (hput.symm.trans hstore) Bool.false_ne_true
    rw [hpriv c hc]
    simpa [State.apply, hc] using h.stored c w' hw' hstore
  · by_cases hc : c = x.cell
    · subst hc
      refine ⟨fun _ => by simpa [State.apply] using hchange, fun hu hsync => ?_⟩
      simpa [State.apply, hu] using (h.updated x.cell w' hw' hput').2 hu hsync
    · obtain ⟨hpub, hold⟩ := h.updated c w' hw' hput'
      rw [hpriv c hc]
      refine ⟨fun hfree => ?_, hold⟩
      simp only [State.apply, Function.update_of_ne hc]
      refine hpub fun y hy => ?_
      rw [hx] at hy
      rcases List.mem_append.mp hy with hy | hy
      · exact hfree y (List.mem_append_left _ hy)
      · rcases List.mem_cons.mp hy with rfl | hy
        · exact Ne.symm hc
        · exact hfree y (List.mem_append_right _ hy)
  · simpa [State.apply, hother y hy] using h.inflight y (hsub y hy)
  · by_cases hc : c = x.cell
    · subst hc
      simp [State.apply, hu]
    · rw [hpriv c hc]
      simpa [State.apply, hc] using h.same c hu

theorem Values.publish (h : Values D s) (hpast : Past D lag s) (hlag : D.Enough lag)
    (hmark : s.marked (D.line c) = true) : Values D (s.publish c) := by
  have hfree : ∀ x ∈ s.pending, x.cell ≠ c := by
    rintro x hx rfl
    exact absurd (hmark.symm.trans (h.unmarked hpast hlag hx)) Bool.false_ne_true.symm
  refine ⟨fun c' hnone => ?_, fun c' w hw hstore => ?_, fun c' w hw hput => ?_, fun x hx => ?_,
    h.single, fun c' hu => ?_⟩
  · by_cases hc : c' = c
    · subst hc
      simpa [State.publish] using (h.fresh c' hnone).1
    · simpa [State.publish, hc] using h.fresh c' hnone
  · by_cases hc : c' = c
    · subst hc
      have hpriv := (h.stored c' w hw hstore).1
      exact ⟨hpriv, fun _ => by simpa [State.publish] using hpriv⟩
    · simpa [State.publish, hc] using h.stored c' w hw hstore
  · by_cases hc : c' = c
    · subst hc
      have hpriv := (h.updated c' w hw hput).2 (hpast.separate hmark)
        (hpast.synced_of_marked hlag hmark hw hput)
      exact ⟨fun _ => by simpa [State.publish] using hpriv, fun _ _ => hpriv⟩
    · simpa [State.publish, hc] using h.updated c' w hw hput
  · simpa [State.publish, hfree x hx] using h.inflight x hx
  · by_cases hc : c' = c
    · subst hc
      simp [State.publish]
    · simpa [State.publish, hc] using h.same c' hu

theorem Values.refresh (h : Values D s) (hpast : Past D lag s)
    (hmark : s.marked (D.line c) = false) : Values D (s.refresh c) := by
  refine ⟨fun c' hnone => ?_, fun c' w hw hstore => ?_, fun c' w hw hput => ?_, h.inflight,
    h.single, fun c' hu => ?_⟩
  · by_cases hc : c' = c
    · subst hc
      simpa [State.refresh] using (h.fresh c' hnone).2
    · simpa [State.refresh, hc] using h.fresh c' hnone
  · by_cases hc : c' = c
    · subst hc
      have hpub := (h.stored c' w hw hstore).2 (.inl hmark)
      exact ⟨by simpa [State.refresh] using hpub, fun _ => hpub⟩
    · simpa [State.refresh, hc] using h.stored c' w hw hstore
  · obtain ⟨hpub, hpriv⟩ := h.updated c' w hw hput
    refine ⟨hpub, fun hu hsync => ?_⟩
    by_cases hc : c' = c
    · subst hc
      have hpub := hpub (h.applied hw fun r q => hpast.clock.cleared_of_synced hsync r q)
      simpa [State.refresh] using hpub
    · simpa [State.refresh, hc] using hpriv hu hsync
  · by_cases hc : c' = c
    · subst hc
      simp [State.refresh]
    · simpa [State.refresh, hc] using h.same c' hu

variable [DecidableEq L]

theorem Past.store (h : Past D lag s) {p : P} (hload : s.CanLoad D p c)
    (hline : s.putEnd (D.line c) ≤ s.clock.done p) (v : V) : Past D lag (s.store D p c v) where
  clock := h.clock
  plain l hl := by
    by_cases hu : D.unified (D.region (D.line c)) = true
    · simpa [State.store, hu] using h.plain l hl
    · have hne : l ≠ D.line c := by
        rintro rfl
        exact hu hl
      simpa [State.store, hu, hne] using h.plain l hl
  mark l hl := by
    by_cases hlc : l = D.line c
    · subst hlc
      refine ⟨⟨s.clock.done p, true, false⟩, by simp [State.store], rfl, ?_⟩
      simp [Layout.Synced, Clock.Reached, State.store, hload.home, hload.running, Stage.Synced]
    · have hold : s.marked l = true := by
        by_cases hu : D.unified (D.region (D.line c)) = true <;>
          simpa [State.store, hu, hlc] using hl
      obtain ⟨w, hw, hnot⟩ := h.mark l hold
      exact ⟨w, by simpa [State.store, hlc] using hw, hnot⟩
  order l w hw := by
    by_cases hlc : l = D.line c
    · subst hlc
      simp only [State.store, Function.update_self, Option.some.injEq] at hw
      exact .inl (hw ▸ hline)
    · exact h.order l w (by simpa [State.store, hlc] using hw)
  stores l w hw := by
    by_cases hlc : l = D.line c
    · subst hlc
      simp only [State.store, Function.update_self, Option.some.injEq] at hw
      rw [hload.home, ← hw]
      exact Nat.le_refl _
    · exact h.stores l w (by simpa [State.store, hlc] using hw)
  puts c' w hw hput := by
    by_cases hc : c' = c
    · subst hc
      simp only [State.store, Function.update_self, Option.some.injEq] at hw
      cases hw
      cases hput
    · exact h.puts c' w (by simpa [State.store, hc] using hw) hput
  putters := h.putters

theorem Values.store (h : Values D s) (hpast : Past D lag s) {p : P} (hload : s.CanLoad D p c)
    (v : V) : Values D (s.store D p c v) := by
  -- nothing is in flight to the cell
  have hfree : ∀ x ∈ s.pending, x.cell ≠ c := by
    rintro x hx rfl
    obtain ⟨-, -, w, hw, hput, hnot⟩ := h.inflight x hx
    exact hnot (hpast.clock.cleared (hload.last w hw hput) _ _)
  have hpub : ∀ c', c' ≠ c → (s.store D p c v).pub c' = s.pub c' := by
    intro c' hc
    by_cases hu : D.unified (D.region (D.line c)) = true <;> simp [State.store, hu, hc]
  have hmarked : ∀ l, (s.store D p c v).marked l = false → s.marked l = false := by
    intro l hl
    by_cases hu : D.unified (D.region (D.line c)) = true
    · simpa [State.store, hu] using hl
    · by_cases hlc : l = D.line c
      · simp [State.store, hu, hlc] at hl
      · simpa [State.store, hu, hlc] using hl
  refine ⟨fun c' hnone => ?_, fun c' w hw hstore => ?_, fun c' w hw hput => ?_, fun x hx => ?_,
    h.single, fun c' hu => ?_⟩
  · have hc : c' ≠ c := by
      rintro rfl
      simp [State.store] at hnone
    rw [hpub c' hc]
    simpa [State.store, hc] using h.fresh c' (by simpa [State.store, hc] using hnone)
  · by_cases hc : c' = c
    · subst hc
      simp only [State.store, Function.update_self, Option.some.injEq] at hw
      subst hw
      refine ⟨by simp [State.store], ?_⟩
      by_cases hu : D.unified (D.region (D.line c')) = true
      · simp [State.store, hu]
      · simp [State.store, hu, Layout.Synced, Clock.Reached, hload.home, hload.running,
          Stage.Synced]
    · obtain ⟨hpriv, hold⟩ := h.stored c' w (by simpa [State.store, hc] using hw) hstore
      rw [hpub c' hc]
      exact ⟨by simpa [State.store, hc] using hpriv, fun hor => by
        simpa [State.store, hc] using hold (hor.imp_left (hmarked _))⟩
  · have hc : c' ≠ c := by
      rintro rfl
      simp only [State.store, Function.update_self, Option.some.injEq] at hw
      cases hw
      cases hput
    obtain ⟨hold, hpriv⟩ := h.updated c' w (by simpa [State.store, hc] using hw) hput
    rw [hpub c' hc]
    exact ⟨fun hfree => by simpa [State.store, hc] using hold hfree,
      fun hu hsync => by simpa [State.store, hc] using hpriv hu hsync⟩
  · have hc := hfree x hx
    obtain ⟨hchange, hr, w, hw, hrest⟩ := h.inflight x hx
    rw [hpub _ hc]
    exact ⟨by simpa [State.store, hc] using hchange, hr, w, by simpa [State.store, hc] using hw,
      hrest⟩
  · by_cases hc : c' = c
    · subst hc
      simp [State.store, hu]
    · rw [hpub c' hc]
      simpa [State.store, hc] using h.same c' hu

theorem Past.update (h : Past D lag s) {p : P}
    (hline : ∀ w, s.lineStore (D.line c) = some w →
      w.phase + w.delay (lag (D.region (D.line c))) ≤ s.clock.done p) (f : V → V) :
    Past D lag (s.update D p c f) := by
  have hputEnd : ∀ l, s.putEnd l ≤ (s.update D p c f).putEnd l := by
    intro l
    by_cases hlc : l = D.line c
    · subst hlc
      simp [State.update]
    · simp [State.update, hlc]
  refine ⟨h.clock, h.plain, h.mark, fun l w hw => ?_, h.stores, fun c' w hw hput => ?_,
    fun l => ?_⟩
  · by_cases hlc : l = D.line c
    · subst hlc
      have hle := hline w hw
      rw [Write.delay] at hle
      split at hle
      · next hended => exact .inr (.inl hended)
      · simp only [State.update, Function.update_self]
        omega
    · simpa [State.update, hlc] using h.order l w hw
  · by_cases hc : c' = c
    · subst hc
      simp only [State.update, Function.update_self, Option.some.injEq] at hw ⊢
      subst hw
      exact Nat.lt_of_lt_of_le (Nat.lt_succ_self _) (Nat.le_max_right _ _)
    · exact Nat.lt_of_lt_of_le (h.puts c' w (by simpa [State.update, hc] using hw) hput)
        (hputEnd _)
  · by_cases hlc : l = D.line c
    · subst hlc
      obtain ⟨q, hq⟩ := h.putters (D.line c)
      simp only [State.update, Function.update_self]
      rcases Nat.le_total (s.clock.done p) (s.clock.done q) with hle | hle
      · exact ⟨q, by omega⟩
      · exact ⟨p, by omega⟩
    · simpa [State.update, hlc] using h.putters l

theorem Values.update (h : Values D s) (hpast : Past D lag s) (hlag : D.Enough lag) {p : P}
    (hget : s.CanGet D lag p c) (hr : D.region (D.line c) ∈ D.flushes p) (f : V → V) :
    Values D (s.update D p c f) := by
  have hpub := h.get hpast hlag hget
  have hfree : ∀ x ∈ s.pending, x.cell ≠ c := by
    rintro x hx rfl
    obtain ⟨-, -, w, hw, hput, hnot⟩ := h.inflight x hx
    have hlt := hget.last w hw
    rw [if_neg (by simp [hput])] at hlt
    exact hnot (hpast.clock.cleared hlt _ _)
  refine ⟨fun c' hnone => ?_, fun c' w hw hstore => ?_, fun c' w hw hput => ?_, fun x hx => ?_,
    ?_, h.same⟩
  · have hc : c' ≠ c := by
      rintro rfl
      simp [State.update] at hnone
    simpa [State.update, hc] using h.fresh c' (by simpa [State.update, hc] using hnone)
  · have hc : c' ≠ c := by
      rintro rfl
      simp only [State.update, Function.update_self, Option.some.injEq] at hw
      subst hw
      cases hstore
    simpa [State.update, hc] using h.stored c' w (by simpa [State.update, hc] using hw) hstore
  · by_cases hc : c' = c
    · subst hc
      refine ⟨fun hnone => absurd rfl (hnone _ List.mem_cons_self), fun hu hsync => ?_⟩
      simp only [State.update, Function.update_self, Option.some.injEq] at hw
      subst hw
      -- the process is still in the phase of the update
      have hclear := hpast.clock.cleared_of_synced hsync (D.region (D.line c')) p
      simp [Clock.Reached, hget.running, Stage.Cleared] at hclear
    · obtain ⟨hold, hpriv⟩ := h.updated c' w (by simpa [State.update, hc] using hw) hput
      refine ⟨fun hfree => ?_, fun hu hsync => by simpa [State.update, hc] using hpriv hu hsync⟩
      simpa [State.update, hc] using hold fun x hx => hfree x (List.mem_cons_of_mem _ hx)
  · rcases List.mem_cons.mp hx with rfl | hx
    · refine ⟨by simp [State.update, hpub], hr, _, by simp [State.update]; rfl, rfl, ?_⟩
      simp [Clock.Reached, State.update, hget.running, Stage.Cleared]
    · simpa [State.update, hfree x hx] using h.inflight x hx
  · refine List.nodup_cons.mpr ⟨fun hmem => ?_, h.single⟩
    obtain ⟨x, hx, heq⟩ := List.mem_map.mp hmem
    exact hfree x hx heq

end

section
variable [DecidableEq P] {D : Layout P R L C} {lag : R → Nat} {s : State P R L C V} {c : C}

theorem Past.tick (h : Past D lag s) (hlag : D.Enough lag) {p : P} {e : Event R} {t : Clock P R}
    (htick : Clock.Tick D s.clock p e t)
    (hsync : ∀ r, e = .sync r → ∀ l, D.home l = p → D.region l = r → s.marked l = false) :
    Past D lag { s with clock := t } where
  clock := htick.inv h.clock
  plain := h.plain
  mark l hl := by
    obtain ⟨w, hw, hended, hnot⟩ := h.mark l hl
    obtain ⟨hr, -⟩ := (hlag l).resolve_left (by simp [h.separate hl])
    refine ⟨w, hw, hended, fun hsynced => ?_⟩
    rcases htick.synced_of hr hsynced with hold | ⟨hp, he⟩
    · exact hnot hold
    · exact absurd (hl.symm.trans (hsync _ he l hp rfl)) Bool.false_ne_true.symm
  order := h.order
  stores l w hw := (h.stores l w hw).trans (htick.done_le _)
  puts := h.puts
  putters l := by
    obtain ⟨q, hq⟩ := h.putters l
    exact ⟨q, hq.trans (Nat.succ_le_succ (htick.done_le q))⟩

theorem Values.tick (h : Values D s) (hpast : Past D lag s) (hlag : D.Enough lag) {p : P}
    {e : Event R} {t : Clock P R} (htick : Clock.Tick D s.clock p e t)
    (hflush : ∀ r, e = .flush r → ∀ x ∈ s.pending, x.proc = p → D.region (D.line x.cell) ≠ r)
    (hsync : ∀ r, e = .sync r → ∀ c, D.home (D.line c) = p → D.region (D.line c) = r →
      s.priv c = s.pub c) : Values D { s with clock := t } := by
  have hinflight : ∀ x ∈ s.pending, ∀ w, s.last x.cell = some w → w.store = false →
      ¬ t.Reached (Stage.Cleared (D.region (D.line x.cell))) x.proc w.phase := by
    intro x hx w hw hput hclear
    obtain ⟨-, hr, w', hw', -, hnot⟩ := h.inflight x hx
    cases hw.symm.trans hw'
    rcases htick.cleared_of hr hclear with hold | ⟨hp, he⟩
    · exact hnot hold
    · exact hflush _ he x hx hp rfl
  refine ⟨h.fresh, fun c w hw hstore => ?_, fun c w hw hput => ?_, fun x hx => ?_, h.single, h.same⟩
  · obtain ⟨hpriv, hpub⟩ := h.stored c w hw hstore
    refine ⟨hpriv, fun hor => ?_⟩
    rcases hor with hmark | hended | hsynced
    · exact hpub (.inl hmark)
    · exact hpub (.inr (.inl hended))
    · rcases hlag (D.line c) with hu | ⟨hr, -⟩
      · exact hpub (.inl (hpast.plain _ hu))
      · rcases htick.synced_of hr hsynced with hold | ⟨hp, he⟩
        · exact hpub (.inr (.inr hold))
        · exact (hsync _ he c hp rfl).symm.trans hpriv
  · obtain ⟨hpub, hpriv⟩ := h.updated c w hw hput
    refine ⟨hpub, fun hu hsynced => ?_⟩
    obtain ⟨hr, -⟩ := (hlag (D.line c)).resolve_left (by simp [hu])
    rcases htick.synced_of hr hsynced with hold | ⟨hp, he⟩
    · exact hpriv hu hold
    · rw [hsync _ he c hp rfl]
      refine hpub ?_
      rintro x hx rfl
      exact hinflight x hx w hw hput ((htick.inv hpast.clock).cleared_of_synced hsynced _ _)
  · obtain ⟨hchange, hr, w, hw, hput, -⟩ := h.inflight x hx
    exact ⟨hchange, hr, w, hw, hput, hinflight x hx w hw hput⟩

variable [DecidableEq R]

theorem Past.sync (h : Past D lag s) (p : P) (r : R) : Past D lag (s.sync D p r) where
  clock := h.clock
  plain l hu := by simp [State.sync, h.plain l hu]
  mark l hl := by
    by_cases hmine : D.home l = p ∧ D.region l = r
    · simp [State.sync, hmine] at hl
    · exact h.mark l (by simpa only [State.sync, if_neg hmine] using hl)
  order := h.order
  stores := h.stores
  puts := h.puts
  putters := h.putters

theorem sync_aligned (s : State P R L C V) {p : P} {r : R} (hp : D.home (D.line c) = p)
    (hr : D.region (D.line c) = r) : (s.sync D p r).priv c = (s.sync D p r).pub c := by
  cases hm : s.marked (D.line c) <;> simp [State.sync, hp, hr, hm]

theorem Values.sync (h : Values D s) (hpast : Past D lag s) (hlag : D.Enough lag) (p : P) (r : R) :
    Values D (s.sync D p r) := by
  -- what the copy that wins holds is right
  have hpriv : ∀ c, s.priv c = s.val c → (s.marked (D.line c) = false → s.pub c = s.val c) →
      (s.sync D p r).priv c = s.val c := by
    intro c hpriv hpub
    simp only [State.sync]
    split
    · next hm => exact hpub hm.2
    · exact hpriv
  refine ⟨fun c hnone => ?_, fun c w hw hstore => ?_, fun c w hw hput => ?_, fun x hx => ?_,
    h.single, fun c hu => ?_⟩
  · obtain ⟨hold, hpub⟩ := h.fresh c hnone
    refine ⟨hpriv c hold fun _ => hpub, ?_⟩
    simp only [State.sync]
    split
    · exact hold
    · exact hpub
  · obtain ⟨hold, hpub⟩ := h.stored c w hw hstore
    refine ⟨hpriv c hold fun hm => hpub (.inl hm), fun hor => ?_⟩
    by_cases hwin : (D.home (D.line c) = p ∧ D.region (D.line c) = r) ∧ s.marked (D.line c) = true
    · simpa [State.sync, hwin] using hold
    · have hnew : s.marked (D.line c) = false ∨ w.ended = true ∨
          D.Synced s.clock (D.line c) w.phase := by
        refine hor.imp_left fun hm => ?_
        by_cases hmine : D.home (D.line c) = p ∧ D.region (D.line c) = r
        · exact Bool.eq_false_of_not_eq_true fun hm => hwin ⟨hmine, hm⟩
        · simpa only [State.sync, if_neg hmine] using hm
      simpa [State.sync, hwin] using hpub hnew
  · obtain ⟨hpub, hold⟩ := h.updated c w hw hput
    have hmarked : s.marked (D.line c) = true → s.priv c = s.val c := fun hm =>
      hold (hpast.separate hm) (hpast.synced_of_marked hlag hm hw hput)
    refine ⟨fun hfree => ?_, fun hu hsynced => ?_⟩
    · simp only [State.sync]
      split
      · next hm => exact hmarked hm.2
      · exact hpub hfree
    · exact hpriv c (hold hu hsynced) fun _ =>
        hpub (h.applied hw fun r q => hpast.clock.cleared_of_synced hsynced r q)
  · simpa [State.sync, h.unmarked hpast hlag hx] using h.inflight x hx
  · by_cases hmine : D.home (D.line c) = p ∧ D.region (D.line c) = r
    · exact sync_aligned s hmine.1 hmine.2
    · simpa [State.sync, hmine] using h.same c hu

theorem access_last {p : P} {r : R} {w : Write} (hw : (s.access D p r).last c = some w) :
    ∃ w', s.last c = some w' ∧ w'.phase = w.phase ∧ w'.store = w.store ∧
      (¬ (D.home (D.line c) = p ∧ D.region (D.line c) = r) → w' = w) := by
  simp only [State.access] at hw
  split at hw
  · next hmine =>
    obtain ⟨w', hw', rfl⟩ := Option.map_eq_some_iff.mp hw
    exact ⟨w', hw', rfl, rfl, fun hnot => absurd hmine hnot⟩
  · exact ⟨w, hw, rfl, rfl, fun _ => rfl⟩

theorem Past.access (h : Past D lag s) (p : P) (r : R) : Past D lag (s.access D p r) := by
  have hsync := h.sync p r
  refine ⟨h.clock, hsync.plain, fun l hl => ?_, fun l w hw => ?_, fun l w hw => ?_,
    fun c w hw hput => ?_, h.putters⟩
  · obtain ⟨w, hw, hrest⟩ := hsync.mark l hl
    have hmine : ¬ (D.home l = p ∧ D.region l = r) := fun hmine => by
      simp [State.access, State.sync, hmine] at hl
    exact ⟨w, (if_neg hmine).trans hw, hrest⟩
  · simp only [State.access] at hw
    split at hw
    · obtain ⟨w', -, rfl⟩ := Option.map_eq_some_iff.mp hw
      exact .inr (.inl rfl)
    · exact h.order l w hw
  · simp only [State.access] at hw
    split at hw
    · obtain ⟨w', hw', rfl⟩ := Option.map_eq_some_iff.mp hw
      exact h.stores l w' hw'
    · exact h.stores l w hw
  · obtain ⟨w', hw', hphase, hstore, -⟩ := access_last hw
    rw [← hphase]
    exact h.puts c w' hw' (hstore.trans hput)

theorem Values.access (h : Values D s) (hpast : Past D lag s) (hlag : D.Enough lag) (p : P)
    (r : R) : Values D (s.access D p r) := by
  have hsync := h.sync hpast hlag p r
  refine ⟨fun c hnone => ?_, fun c w hw hstore => ?_, fun c w hw hput => ?_, fun x hx => ?_,
    h.single, hsync.same⟩
  · refine hsync.fresh c ?_
    simp only [State.access] at hnone
    split at hnone
    · exact Option.map_eq_none_iff.mp hnone
    · exact hnone
  · obtain ⟨w', hw', hphase, hkind, hsame⟩ := access_last hw
    obtain ⟨hpriv, hpub⟩ := hsync.stored c w' hw' (hkind.trans hstore)
    refine ⟨hpriv, fun hor => ?_⟩
    by_cases hmine : D.home (D.line c) = p ∧ D.region (D.line c) = r
    · exact (sync_aligned s hmine.1 hmine.2).symm.trans hpriv
    · rw [← hsame hmine] at hor
      exact hpub hor
  · obtain ⟨w', hw', hphase, hkind, -⟩ := access_last hw
    rw [← hphase]
    exact hsync.updated c w' hw' (hkind.trans hput)
  · obtain ⟨hchange, hr, w, hw, hput, hnot⟩ := hsync.inflight x hx
    refine ⟨hchange, hr, ?_⟩
    by_cases hmine : D.home (D.line x.cell) = p ∧ D.region (D.line x.cell) = r
    · exact ⟨{ w with ended := true }, (if_pos hmine).trans (congrArg _ hw), hput, hnot⟩
    · exact ⟨w, (if_neg hmine).trans hw, hput, hnot⟩

variable [DecidableEq L] [DecidableEq C]

theorem Step.keeps {t : State P R L C V} (hlag : D.Enough lag) (hstep : Step D lag s t)
    (hpast : Past D lag s) (h : Values D s) : Past D lag t ∧ Values D t := by
  cases hstep with
  | store p c v hload hline => exact ⟨hpast.store hload hline v, h.store hpast hload v⟩
  | update p c f hget hr hline => exact ⟨hpast.update hline f, h.update hpast hlag hget hr f⟩
  | apply x l₁ l₂ hx => exact ⟨hpast.congr rfl rfl rfl rfl rfl, h.apply hx⟩
  | access p r hrun hr => exact ⟨hpast.access p r, h.access hpast hlag p r⟩
  | publish c hm => exact ⟨hpast.congr rfl rfl rfl rfl rfl, h.publish hpast hlag hm⟩
  | refresh c hm => exact ⟨hpast.congr rfl rfl rfl rfl rfl, h.refresh hpast hm⟩
  | tick p e t htick hflush =>
    cases e with
    | quiet =>
      exact ⟨hpast.tick hlag htick fun _ he => (by cases he),
        h.tick hpast hlag htick hflush fun _ he => (by cases he)⟩
    | flush r =>
      exact ⟨hpast.tick hlag htick fun _ he => (by cases he),
        h.tick hpast hlag htick hflush fun _ he => (by cases he)⟩
    | sync r =>
      have hpast' := hpast.sync p r
      refine ⟨hpast'.tick hlag htick fun r' he l hp hr => ?_,
        (h.sync hpast hlag p r).tick hpast' hlag htick (fun _ he => (by cases he))
          fun r' he c hp hr => ?_⟩
      · cases he
        simp [State.sync, hp, hr]
      · cases he
        exact sync_aligned s hp hr

theorem coherent_of_enough (hlag : D.Enough lag) (mem : C → V) : Coherent D lag mem := by
  intro s hs p c
  have hinv : Past D lag s ∧ Values D s := by
    induction hs with
    | refl => exact ⟨.start mem, .start mem⟩
    | tail _ hstep ih => exact hstep.keeps hlag ih.1 ih.2
  exact ⟨fun hload => hinv.2.load hinv.1 hload, fun hget => hinv.2.get hinv.1 hlag hget⟩

end

end State

-- ------------------------------
-- Stores that are not seen
-- ------------------------------

namespace State

/-- Nothing is in flight, and the value stored in the first phase is not public. -/
structure Stale (c : C) (s : State P R L C V) : Prop where
  pending : s.pending = []
  last : s.last c = some ⟨0, true, false⟩
  stale : s.pub c ≠ s.val c

section
variable [DecidableEq P] [DecidableEq R] [DecidableEq L] [DecidableEq C] {D : Layout P R L C}
  {lag : R → Nat} {s : State P R L C V} {c : C}

open Relation

theorem Stale.idle (lag : R → Nat) (h : s.Stale c) {t : Clock P R}
    (ht : ReflTransGen (Clock.Idle D (D.line c)) s.clock t) :
    ∃ s' : State P R L C V, ReflTransGen (Step D lag) s s' ∧ s'.Stale c ∧ s'.clock = t := by
  induction ht with
  | refl => exact ⟨s, .refl, h, rfl⟩
  | tail _ hidle ih =>
    obtain ⟨s', hrun, hs', rfl⟩ := ih
    obtain ⟨p, e, htick, hne⟩ := hidle
    refine ⟨s'.after D p e _, hrun.tail (.tick _ _ _ _ htick fun _ _ x hx => ?_), ?_, ?_⟩
    · simp [hs'.pending] at hx
    · cases e with
      | quiet => exact ⟨hs'.pending, hs'.last, hs'.stale⟩
      | flush r => exact ⟨hs'.pending, hs'.last, hs'.stale⟩
      | sync r =>
        refine ⟨hs'.pending, hs'.last, ?_⟩
        have hother : ¬ ((D.home (D.line c) = p ∧ D.region (D.line c) = r) ∧
            s'.marked (D.line c) = true) := fun hmine =>
          hne ⟨hmine.1.1.symm, congrArg Event.sync hmine.1.2.symm⟩
        simpa only [after, sync, if_neg hother] using hs'.stale
    · cases e <;> rfl

theorem stale_store (lag : R → Nat) {mem : C → V} {v : V}
    (hplain : D.unified (D.region (D.line c)) = false) (hv : v ≠ mem c) :
    ∃ s : State P R L C V, ReflTransGen (Step D lag) (start mem) s ∧ s.Stale c ∧
      s.clock = ⟨fun _ => .running, fun _ => 0⟩ := by
  have hload : (start mem : State P R L C V).CanLoad D (D.home (D.line c)) c :=
    ⟨rfl, rfl, fun w hw => by simp [start] at hw⟩
  refine ⟨_, .single (.store _ _ _ v hload (Nat.le_refl _)), ⟨rfl, ?_, ?_⟩, rfl⟩
  · simp [store, start]
  · simpa [store, start, hplain] using hv.symm

/-- A process that gets to phase `lag` while the line is not synchronised reads an old value. -/
theorem not_coherent {mem : C → V} {v : V} (hplain : D.unified (D.region (D.line c)) = false)
    (hv : v ≠ mem c) {t : Clock P R} {q : P}
    (ht : ReflTransGen (Clock.Idle D (D.line c)) ⟨fun _ => .running, fun _ => 0⟩ t)
    (hq : t.stage q = .running) (hdone : lag (D.region (D.line c)) ≤ t.done q) :
    ¬ Coherent D lag mem := by
  intro hcoh
  obtain ⟨s, hrun, hs, hclock⟩ := stale_store lag hplain hv
  obtain ⟨s', hrun', hs', rfl⟩ := hs.idle lag (hclock ▸ ht)
  refine hs'.stale ((hcoh s' (hrun.trans hrun') q c).2 ⟨hq, fun w hw => ?_⟩)
  cases hs'.last.symm.trans hw
  simpa [Write.delay] using hdone

end

end State

/-- All accesses see what was written last exactly if between a store that its owner does not
synchronise itself and an access from outside there is one phase, if the processes meet again
after they have synchronised, and two phases otherwise. Regions that are not synchronised in
between never become public. -/
theorem coherent_iff [Fintype P] [DecidableEq P] [DecidableEq R] [DecidableEq L] [DecidableEq C]
    [Nontrivial P] [Nontrivial V] (D : Layout P R L C) (lag : R → Nat) (mem : C → V)
    (hline : Function.Surjective D.line)
    (htwice : D.twice = true → ∀ l, D.unified (D.region l) = false →
      D.region l ∈ D.syncs (D.home l)) :
    Coherent D lag mem ↔ D.Enough lag := by
  refine ⟨fun hcoh l => ?_, fun h => State.coherent_of_enough h mem⟩
  obtain ⟨c, rfl⟩ := hline l
  obtain ⟨v, hv⟩ := exists_ne (mem c)
  obtain ⟨q, hq⟩ := exists_ne (D.home (D.line c))
  by_contra hnot
  rw [not_or, not_and, Nat.not_le] at hnot
  obtain ⟨hplain, hlag⟩ := hnot
  have hplain := Bool.eq_false_of_not_eq_true hplain
  by_cases hsync : D.region (D.line c) ∈ D.syncs (D.home (D.line c))
  · have hlt := hlag hsync
    unfold Layout.needed at hlt
    split at hlt
    · exact State.not_coherent (q := q) hplain hv .refl rfl (Nat.le_of_lt_succ hlt) hcoh
    · next hone =>
      -- the other process is in the next phase while the owner has not left the first one
      have hfinish := Clock.idle_finish (D := D) (l := D.line c) (p := q)
        (t := ⟨fun _ => .first, fun _ => 0⟩) (Bool.eq_false_of_not_eq_true hone) rfl
        (fun _ => .inr ⟨rfl, trivial⟩) fun heq => absurd heq hq
      refine State.not_coherent (q := q) hplain hv ((Clock.idle_meet D _ 0).trans hfinish) ?_ ?_
        hcoh
      · simp [Clock.finish]
      · simpa [Clock.finish] using Nat.le_of_lt_succ hlt
  · have hone : D.twice = false :=
      Bool.eq_false_of_not_eq_true fun h => hsync (htwice h _ hplain)
    exact State.not_coherent (q := q) hplain hv (Clock.idle_rounds hone hsync _) rfl
      (Nat.le_refl _) hcoh

end Lib.Copies
