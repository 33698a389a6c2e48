import Mathlib.Algebra.BigOperators.Ring.Finset
import Mathlib.Data.ZMod.Basic
import ArmciMpi.Atomics.Stages

/-!
# Read-modify-write calls on one element

MPI promises that operations of one kind on one element are atomic, and no more of
other mixes (`SameOpAtomic`). In the runs in which it keeps this promise the history
of the fetches of an element that is only used as a whole, and only for additions or
only for swaps, is that of a register (`rmw_linearizable`), whatever the interleaving
and the settings. So calls that add one draw different numbers (`tickets`), and calls
that swap pass on every value once (`swaps_pass_on`).

Updates land later than they are fetched, but on such an element in the same order
(`InOrder`); what a fetch finds is the memory with the updates still in flight
(`Alone.after_fetched`), which is all of the history so far.
-/

namespace ArmciMpi.Rmw

open Lib

variable {J : Job}

-- ------------------------------
-- One element
-- ------------------------------

structure Element where
  loc : Loc
  type : BaseType
  deriving DecidableEq

def Element.cells (e : Element) : Set Loc := block e.loc e.type.size

def Element.bytes (e : Element) (m : Mem) : List UInt8 := bytesAt m e.loc e.type.size

def Flight.element (x : Flight J) : Element := ⟨x.atomic.loc, x.atomic.type⟩

def Flight.update (x : Flight J) (v : List UInt8) : List UInt8 := x.atomic.update x.operand v

def Element.flights (e : Element) (xs : List (Flight J)) : List (Flight J) :=
  xs.filter fun x => x.element = e

def Element.after (e : Element) (xs : List (Flight J)) (v : List UInt8) : List UInt8 :=
  (e.flights xs).foldl (fun v x => x.update v) v

def landedFlights (log : List (Change J)) : List (Flight J) :=
  log.filterMap fun
    | .landed x => some x
    | .stored .. => none

/-- The element is only used as a whole, and no result is stored in it. -/
structure Alone (e : Element) (s : State J) (hist : List (Entry J)) : Prop where
  ops : ∀ x ∈ hist, x.flight.element = e ∨ Disjoint x.flight.element.cells e.cells
  stores : ∀ l bytes, .stored l bytes ∈ s.log → Disjoint (block l bytes.length) e.cells

theorem bytes_writeBytes_of_disjoint {e : Element} {l : Loc} {bytes : List UInt8}
    (h : Disjoint (block l bytes.length) e.cells) (m : Mem) :
    e.bytes (writeBytes m l bytes) = e.bytes m :=
  bytesAt_congr fun _ hl => writeBytes_frame m l bytes fun hin => Set.disjoint_left.mp h hin hl

section
variable {e : Element} {x : Flight J}

theorem Flight.update_length (hlen : x.operand.length = x.atomic.type.size) {v : List UInt8}
    (hv : v.length = x.atomic.type.size) : (x.update v).length = x.atomic.type.size := by
  unfold Flight.update Atomic.update
  split
  · exact x.atomic.type.keepsLength_sum _ _ hlen hv
  · exact hlen

theorem bytes_apply (hlen : x.operand.length = x.atomic.type.size)
    (he : x.element = e ∨ Disjoint x.element.cells e.cells) (m : Mem) :
    e.bytes (x.apply m) = if x.element = e then x.update (e.bytes m) else e.bytes m := by
  have hnew := x.update_length hlen (bytesAt_length m x.atomic.loc x.atomic.type.size)
  by_cases heq : x.element = e
  · subst heq
    rw [if_pos rfl]
    exact writeBytes_bytes m _ hnew
  · rw [if_neg heq]
    refine bytes_writeBytes_of_disjoint ?_ m
    rw [show (x.atomic.update x.operand _).length = _ from hnew]
    exact he.resolve_left heq

theorem Element.after_cons (e : Element) (x : Flight J) (xs : List (Flight J)) (v : List UInt8) :
    e.after (x :: xs) v = e.after xs (if x.element = e then x.update v else v) := by
  by_cases h : x.element = e <;> simp [Element.after, Element.flights, h]

theorem Element.after_append (e : Element) (xs ys : List (Flight J)) (v : List UInt8) :
    e.after (xs ++ ys) v = e.after ys (e.after xs v) := by
  simp [Element.after, Element.flights]

theorem bytes_applyAll {xs : List (Flight J)}
    (hlen : ∀ x ∈ xs, x.operand.length = x.atomic.type.size)
    (he : ∀ x ∈ xs, x.element = e ∨ Disjoint x.element.cells e.cells) (m : Mem) :
    e.bytes (xs.foldl Flight.apply m) = e.after xs (e.bytes m) := by
  induction xs generalizing m with
  | nil => rfl
  | cons x xs ih =>
    rw [List.foldl_cons, ih (fun y hy => hlen y (List.mem_cons_of_mem x hy))
      (fun y hy => he y (List.mem_cons_of_mem x hy)),
      bytes_apply (hlen x List.mem_cons_self) (he x List.mem_cons_self), e.after_cons]

theorem landedFlights_snoc (log : List (Change J)) (x : Flight J) :
    landedFlights (log ++ [.landed x]) = landedFlights log ++ [x] := by
  simp [landedFlights]

theorem bytes_memory {log : List (Change J)}
    (hlen : ∀ x ∈ landedFlights log, x.operand.length = x.atomic.type.size)
    (he : ∀ x ∈ landedFlights log, x.element = e ∨ Disjoint x.element.cells e.cells)
    (hstores : ∀ l bytes, .stored l bytes ∈ log → Disjoint (block l bytes.length) e.cells)
    (m : Mem) :
    e.bytes (memory m log) = e.after (landedFlights log) (e.bytes m) := by
  induction log generalizing m with
  | nil => rfl
  | cons c log ih =>
    have ih' := ih (fun x hx => hlen x ?_) (fun x hx => he x ?_)
      fun l bytes hl => hstores l bytes (List.mem_cons_of_mem c hl)
    · show e.bytes (memory (c.apply m) log) = _
      rw [ih']
      cases c with
      | landed x =>
        show e.after (landedFlights log) (e.bytes (x.apply m)) = e.after (x :: landedFlights log) _
        have hx : x ∈ landedFlights (.landed x :: log) := by simp [landedFlights]
        rw [bytes_apply (hlen x hx) (he x hx), e.after_cons]
      | stored l bytes =>
        show e.after _ (e.bytes (writeBytes m l bytes)) = e.after (landedFlights log) _
        rw [bytes_writeBytes_of_disjoint (hstores l bytes List.mem_cons_self)]
    all_goals
      unfold landedFlights at hx ⊢
      rw [List.filterMap_cons]
      split
      · exact hx
      · exact List.mem_cons_of_mem _ hx

end

-- ------------------------------
-- What MPI promises
-- ------------------------------

def Element.entries (e : Element) (hist : List (Entry J)) : List (Entry J) :=
  hist.filter fun x => x.flight.element = e

theorem Element.mem_entries {e : Element} {hist : List (Entry J)} {x : Entry J} :
    x ∈ e.entries hist ↔ x ∈ hist ∧ x.flight.element = e := by
  simp [Element.entries]

theorem Element.entries_append (e : Element) (hist new : List (Entry J)) :
    e.entries (hist ++ new) = e.entries hist ++ e.entries new := List.filter_append ..

/-- What an operation finds that comes after all those fetched before. -/
def State.serial (s : State J) (x : Flight J) : List UInt8 :=
  bytesAt (s.fetched.foldl Flight.apply s.mem) x.atomic.loc x.atomic.type.size

/-- The operations on the element are all additions or all replacements. -/
def Element.OneKind (e : Element) (hist : List (Entry J)) : Prop :=
  ∀ x ∈ e.entries hist, ∀ y ∈ e.entries hist, x.flight.atomic.op = y.flight.atomic.op

/-- Operations of one kind on an element that is only used as a whole take place one after
the other, in the order of their fetches: `accumulate_ops` is at least `same_op`. -/
def SameOpAtomic (s : State J × List (Entry J)) : Step J → Prop
  | .fetch x bytes => Alone x.element s.1 s.2 →
    (∀ y ∈ x.element.entries s.2, y.flight.atomic.op = x.atomic.op) → bytes = s.1.serial x
  | .land x => Alone x.element s.1 s.2 → x.element.OneKind s.2 →
    ∀ y ∈ s.1.fetched.takeWhile (· ≠ x), y.element ≠ x.element
  | .call .. | .act _ | .get .. | .read _ => True

/-- The runs with their history in which MPI keeps its promise. -/
noncomputable def atomicRuns (J : Job) : System (State J × List (Entry J)) (Step J) :=
  (traced J).restrict SameOpAtomic

theorem flights_erase_of_ne {x : Flight J} {e : Element} (hne : x.element ≠ e)
    (xs : List (Flight J)) : e.flights (xs.erase x) = e.flights xs := by
  induction xs with
  | nil => rfl
  | cons y ys ih =>
    by_cases hyx : y = x
    · subst hyx
      simp [Element.flights, hne]
    · rw [List.erase_cons_tail (by simpa using hyx)]
      simp only [Element.flights, List.filter_cons] at ih ⊢
      rw [ih]

theorem flights_erase {x : Flight J} {xs : List (Flight J)} (hx : x ∈ xs)
    (hfirst : ∀ y ∈ xs.takeWhile (· ≠ x), y.element ≠ x.element) :
    x :: x.element.flights (xs.erase x) = x.element.flights xs := by
  induction xs with
  | nil => cases hx
  | cons y ys ih =>
    by_cases hyx : y = x
    · subst hyx
      simp [Element.flights]
    · have hmem : x ∈ ys := (List.mem_cons.mp hx).resolve_left fun h => hyx h.symm
      have hne : y.element ≠ x.element := hfirst y (by simp [hyx])
      have ih' := ih hmem fun z hz => hfirst z <| by
        rw [List.takeWhile_cons_of_pos (by simpa using hyx)]
        exact List.mem_cons_of_mem y hz
      rw [List.erase_cons_tail (by simpa using hyx)]
      simpa [Element.flights, hne] using ih'

inductive Flow (s t : State J) (hist : List (Entry J)) : List (Entry J) → Prop
  | kept (hlanded : landedFlights t.log = landedFlights s.log) (hfetched : t.fetched = s.fetched) :
    Flow s t hist []
  | fetch (x : Entry J) (hfound : Alone x.flight.element s hist →
      (∀ y ∈ x.flight.element.entries hist, y.flight.atomic.op = x.flight.atomic.op) →
        x.found = s.serial x.flight) (hlog : t.log = s.log)
      (hfetched : t.fetched = s.fetched ++ [x.flight]) : Flow s t hist [x]
  | land (x : Flight J) (hx : x ∈ s.fetched)
      (hfirst : Alone x.element s hist → x.element.OneKind hist →
        ∀ y ∈ s.fetched.takeWhile (· ≠ x), y.element ≠ x.element)
      (hlog : t.log = s.log ++ [.landed x]) (hfetched : t.fetched = s.fetched.erase x) :
    Flow s t hist []

theorem act_frame {s t : State J} {p : Fin J.size} {f : Frame} (ht : s.act p f = some t) :
    t.initial = s.initial ∧ s.log <+: t.log ∧ landedFlights t.log = landedFlights s.log ∧
      t.fetched = s.fetched := by
  unfold State.act at ht
  split at ht
  · rename_i a rest _
    simp only [Option.ite_none_right_eq_some, Option.some.injEq] at ht
    obtain ⟨-, rfl⟩ := ht
    cases a <;> simp [State.effect, State.setPhase, landedFlights]
  · split at ht
    · cases ht
      exact ⟨rfl, List.prefix_refl _, rfl, rfl⟩
    · cases ht

-- ------------------------------
-- What holds of an element
-- ------------------------------

def Known (s : State J) (hist : List (Entry J)) : Prop :=
  ∀ x ∈ landedFlights s.log ++ s.fetched, x ∈ hist.map Entry.flight

/-- The updates of the element land in the order of the history. -/
def InOrder (e : Element) (s : State J) (hist : List (Entry J)) : Prop :=
  e.flights (landedFlights s.log) ++ e.flights s.fetched = e.flights (hist.map Entry.flight)

section
variable {s t : State J} {hist new : List (Entry J)} {a : Step J} {e : Element}

theorem Consistent.flow (h : Consistent s hist) (hok : SameOpAtomic (s, hist) a)
    (hn : Rmw.next s a = some t) :
    t.initial = s.initial ∧ s.log <+: t.log ∧ Flow s t hist (fetches s a) := by
  cases a with
  | act p =>
    simp only [Rmw.next] at hn
    split at hn
    · obtain ⟨hinit, hlog, hlanded, hfetched⟩ := act_frame hn
      exact ⟨hinit, hlog, .kept hlanded hfetched⟩
    · cases hn
  | fetch x bytes =>
    simp only [Rmw.next, Option.ite_none_right_eq_some, Option.some.injEq] at hn
    obtain ⟨⟨hx, -⟩, rfl⟩ := hn
    obtain ⟨f, hp, -⟩ := h.calling x hx
    have hnew : fetches s (.fetch x bytes) = [⟨f.call, x, bytes, f.begun⟩] := by
      simp only [fetches, hp]
    exact ⟨rfl, List.prefix_refl _, hnew ▸ .fetch _ hok rfl rfl⟩
  | land x =>
    simp only [Rmw.next, Option.ite_none_right_eq_some, Option.some.injEq] at hn
    obtain ⟨hx, rfl⟩ := hn
    exact ⟨rfl, List.prefix_append _ _, .land x hx hok rfl rfl⟩
  | call p c | get p loc n | read p =>
    simp only [Rmw.next] at hn
    split at hn <;> cases hn
    exact ⟨rfl, List.prefix_refl _, .kept rfl rfl⟩

theorem Known.flow (h : Known s hist) (hf : Flow s t hist new) : Known t (hist ++ new) := by
  intro x hx
  rw [List.map_append]
  cases hf with
  | kept hlanded hfetched =>
    rw [hlanded, hfetched] at hx
    exact List.mem_append_left _ (h x hx)
  | fetch y hfound hlog hfetched =>
    rw [hlog, hfetched, ← List.append_assoc] at hx
    exact (List.mem_append.mp hx).elim (fun hx => List.mem_append_left _ (h x hx))
      (List.mem_append_right _)
  | land y hy hfirst hlog hfetched =>
    refine List.mem_append_left _ ?_
    rw [hlog, landedFlights_snoc, hfetched] at hx
    rcases List.mem_append.mp hx with hx | hx
    · rcases List.mem_append.mp hx with hx | hx
      · exact h x (List.mem_append_left _ hx)
      · rw [List.mem_singleton.mp hx]
        exact h y (List.mem_append_right _ hy)
    · exact h x (List.mem_append_right _ (List.mem_of_mem_erase hx))

theorem InOrder.flow (h : InOrder e s hist) (ha : Alone e s hist) (hone : e.OneKind hist)
    (hf : Flow s t hist new) : InOrder e t (hist ++ new) := by
  unfold InOrder at h ⊢
  cases hf with
  | kept hlanded hfetched => rw [hlanded, hfetched, h, List.append_nil]
  | fetch x hfound hlog hfetched =>
    rw [hlog, hfetched]
    simp only [Element.flights, List.filter_append, List.map_append, List.map_cons,
      List.map_nil] at h ⊢
    rw [← h, List.append_assoc]
  | land x hx hfirst hlog hfetched =>
    rw [hlog, landedFlights_snoc, hfetched, List.append_nil, ← h]
    by_cases he : x.element = e
    · subst he
      rw [← flights_erase hx (hfirst ha hone)]
      simp [Element.flights]
    · rw [flights_erase_of_ne he]
      simp [Element.flights, he]

theorem Alone.flight (ha : Alone e s hist) (hc : Consistent s hist) {x : Flight J}
    (hx : x ∈ hist.map Entry.flight) : x.operand.length = x.atomic.type.size ∧
      (x.element = e ∨ Disjoint x.element.cells e.cells) := by
  obtain ⟨y, hy, rfl⟩ := List.mem_map.mp hx
  exact ⟨(hc.entries y hy).length, ha.ops y hy⟩

theorem Alone.after_fetched (ha : Alone e s hist) (hc : Consistent s hist) (hk : Known s hist)
    (ho : InOrder e s hist) :
    e.bytes s.mem = e.after (landedFlights s.log) (e.bytes s.initial) ∧
      e.bytes (s.fetched.foldl Flight.apply s.mem) =
        e.after (hist.map Entry.flight) (e.bytes s.initial) := by
  have hall := fun x hx => ha.flight hc (hk x hx)
  have hmem : e.bytes s.mem = e.after (landedFlights s.log) (e.bytes s.initial) :=
    bytes_memory (fun x hx => (hall x (List.mem_append_left _ hx)).1)
      (fun x hx => (hall x (List.mem_append_left _ hx)).2) ha.stores s.initial
  refine ⟨hmem, ?_⟩
  rw [bytes_applyAll (fun x hx => (hall x (List.mem_append_right _ hx)).1)
    (fun x hx => (hall x (List.mem_append_right _ hx)).2), hmem, ← e.after_append]
  rw [Element.after, Element.after, ← show _ = _ from ho]
  simp [Element.flights]

end

def Element.history (e : Element) (hist : List (Entry J)) : List (Entry J × List UInt8) :=
  (e.entries hist).map fun x => (x, x.found)

def Entry.update (x : Entry J) (v : List UInt8) : List UInt8 := x.flight.update v

theorem Element.history_append (e : Element) (hist new : List (Entry J)) :
    e.history (hist ++ new) = e.history hist ++ e.history new := by
  simp [Element.history, Element.entries]

theorem Alone.of_le {e : Element} {s t : State J} {hist new : List (Entry J)}
    (hlog : s.log <+: t.log) (h : Alone e t (hist ++ new)) : Alone e s hist :=
  ⟨fun x hx => h.ops x (List.mem_append_left _ hx), fun l bytes hl =>
    h.stores l bytes (hlog.subset hl)⟩

theorem Element.OneKind.of_append {e : Element} {hist new : List (Entry J)}
    (h : e.OneKind (hist ++ new)) : e.OneKind hist := by
  rw [Element.OneKind, e.entries_append] at h
  exact fun x hx y hy => h x (List.mem_append_left _ hx) y (List.mem_append_left _ hy)

structure Serial (e : Element) (s : State J) (hist : List (Entry J)) : Prop where
  order : InOrder e s hist
  register : Register Entry.update (e.bytes s.initial) (e.history hist)
    (e.after (hist.map Entry.flight) (e.bytes s.initial))

theorem Serial.step {e : Element} {s t : State J} {hist new : List (Entry J)}
    (h : Serial e s hist) (hc : Consistent s hist) (hk : Known s hist)
    (hinit : t.initial = s.initial) (hlog : s.log <+: t.log) (hflow : Flow s t hist new)
    (ha : Alone e t (hist ++ new)) (hone : e.OneKind (hist ++ new)) : Serial e t (hist ++ new) := by
  have ha' := ha.of_le hlog
  refine ⟨h.order.flow ha' hone.of_append hflow, ?_⟩
  have hr := h.register
  rw [hinit]
  cases hflow with
  | kept | land => simpa using hr
  | fetch x hfound _ _ =>
    rw [e.history_append, List.map_append, e.after_append, List.map_singleton, e.after_cons]
    by_cases hx : x.flight.element = e
    · have hnew : e.history [x] = [(x, x.found)] := by simp [Element.history, Element.entries, hx]
      have hmem : x ∈ e.entries (hist ++ [x]) := Element.mem_entries.mpr ⟨by simp, hx⟩
      have hval : x.found = e.after (hist.map Entry.flight) (e.bytes s.initial) := by
        rw [hfound (hx ▸ ha') fun y hy => ?_, ← (ha'.after_fetched hc hk h.order).2, ← hx]
        · rfl
        · refine hone y ?_ x hmem
          rw [e.entries_append]
          exact List.mem_append_left _ (hx ▸ hy)
      rw [hnew, if_pos hx, hval]
      exact hr.snoc x
    · have hnew : e.history [x] = [] := by simp [Element.history, Element.entries, hx]
      rw [hnew, if_neg hx, List.append_nil]
      exact hr

theorem Consistent.start (m : Mem) : Consistent (start J m) [] where
  stage := fun p f hp => by cases hp
  calling := fun x hx => by cases hx
  fresh := fun id hid => by cases hid
  nodup := List.nodup_nil
  entries := fun x hx => by cases hx
  found := fun x hx => by cases hx
  took := fun x hx => by cases hx
  returned := fun d hd => by cases hd

theorem reachable_serial {s : State J × List (Entry J)} (h : (atomicRuns J).Reachable s) :
    Consistent s.1 s.2 ∧ Known s.1 s.2 ∧
      ∀ e : Element, Alone e s.1 s.2 → e.OneKind s.2 → Serial e s.1 s.2 := by
  refine h.invariant (I := fun s => Consistent s.1 s.2 ∧ Known s.1 s.2 ∧
    ∀ e : Element, Alone e s.1 s.2 → e.OneKind s.2 → Serial e s.1 s.2) ?_ ?_
  · rintro ⟨s, hist⟩ ⟨⟨m, rfl⟩, rfl⟩
    exact ⟨.start m, List.forall_mem_nil _, fun e _ _ => ⟨rfl, .nil⟩⟩
  · rintro ⟨s, hist⟩ a ⟨t, hist'⟩ - ⟨hc, hk, hs⟩ hn
    obtain ⟨hok, hn⟩ := System.restrict_next.mp hn
    obtain ⟨hn, rfl⟩ := System.traced_next.mp hn
    obtain ⟨hinit, hlog, hflow⟩ := hc.flow hok hn
    exact ⟨hc.next hn, hk.flow hflow, fun e ha hone =>
      (hs e (ha.of_le hlog) hone.of_append).step hc hk hinit hlog hflow ha hone⟩

-- ------------------------------
-- The result of a call
-- ------------------------------

def Change.cells : Change J → Set Loc
  | .landed x => x.element.cells
  | .stored l bytes => block l bytes.length

/-- The call has its place in the history, and `ploc` holds what it found until something
else is written there. -/
structure Done.Result (d : Done J) (s : State J) (hist : List (Entry J)) (x : Entry J) : Prop where
  mem : x ∈ hist
  call : x.call = d.call
  id : x.flight.id = d.id
  origin : x.flight.origin = d.origin
  held : ∃ before after, s.log = before ++ .stored (d.origin, d.call.ploc) x.found :: after ∧
    ((∀ c ∈ after, Disjoint c.cells (block (d.origin, d.call.ploc) x.found.length)) →
      bytesAt s.mem (d.origin, d.call.ploc) x.found.length = x.found)

theorem memory_eqOn {log : List (Change J)} {cells : Set Loc}
    (hlen : ∀ x ∈ landedFlights log, x.operand.length = x.atomic.type.size)
    (hdisj : ∀ c ∈ log, Disjoint c.cells cells) (m : Mem) : Set.EqOn (memory m log) m cells := by
  induction log generalizing m with
  | nil => exact Set.eqOn_refl m cells
  | cons c log ih =>
    obtain ⟨hc, hrest⟩ := List.forall_mem_cons.mp hdisj
    cases c with
    | landed x =>
      obtain ⟨hx, hlen⟩ := List.forall_mem_cons.mp
        (show ∀ y ∈ x :: landedFlights log, _ from hlen)
      refine (ih hlen hrest (x.apply m)).trans fun l hl => writeBytes_frame m _ _ ?_
      have hnew := x.update_length hx (bytesAt_length m x.atomic.loc x.atomic.type.size)
      rw [show (x.atomic.update x.operand _).length = _ from hnew]
      exact Set.disjoint_right.mp hc hl
    | stored l' bytes =>
      exact (ih hlen hrest (writeBytes m l' bytes)).trans fun l hl =>
        writeBytes_frame m l' bytes (Set.disjoint_right.mp hc hl)

section
variable {s : State J} {hist : List (Entry J)} {e : Element}

theorem Consistent.result (hc : Consistent s hist) (hk : Known s hist) {d : Done J}
    (hd : d ∈ s.returned) : ∃ x, d.Result s hist x := by
  obtain ⟨x, hx, hcall, hid, horigin, hstored⟩ := hc.returned d hd
  obtain ⟨before, after, hlog⟩ := List.append_of_mem hstored
  refine ⟨x, hx, hcall, hid, horigin, before, after, hlog, fun hdisj => ?_⟩
  have hlen : ∀ y ∈ landedFlights after, y.operand.length = y.atomic.type.size := by
    intro y hy
    have hmem : y ∈ landedFlights s.log := by
      rw [hlog, landedFlights, List.filterMap_append]
      exact List.mem_append_right _ hy
    obtain ⟨z, hz, rfl⟩ := List.mem_map.mp (hk y (List.mem_append_left _ hmem))
    exact (hc.entries z hz).length
  have hmem : s.mem = memory (writeBytes (memory s.initial before) (d.origin, d.call.ploc) x.found)
      after := by
    rw [State.mem, memory, hlog, List.foldl_append]
    rfl
  rw [hmem, bytesAt_congr (memory_eqOn hlen hdisj _)]
  exact writeBytes_bytes _ _ rfl

theorem Alone.after_landed (ha : Alone e s hist) (hc : Consistent s hist) (hk : Known s hist)
    (ho : InOrder e s hist) (hnone : ∀ x ∈ s.fetched, x.element ≠ e) :
    e.bytes s.mem = e.after (hist.map Entry.flight) (e.bytes s.initial) := by
  have hempty : e.flights s.fetched = [] := by simpa [Element.flights] using hnone
  have hlanded : e.flights (landedFlights s.log) = e.flights (hist.map Entry.flight) := by
    rw [← show _ = _ from ho, hempty, List.append_nil]
  rw [(ha.after_fetched hc hk ho).1, Element.after, Element.after, hlanded]

/-- If MPI keeps its promise, the calls on an element that is used as a whole and for one
kind of operation are those of a register in the order of their fetches: each finds what the
ones before it left, although none of the updates need have landed. When they have, the
memory holds the last value. A call that has returned has its place in that order and its
result at `ploc`; a later fetch comes after it. -/
theorem rmw_linearizable (h : (atomicRuns J).Reachable (s, hist)) (ha : Alone e s hist)
    (hone : e.OneKind hist) :
    (∃ v, Register Entry.update (e.bytes s.initial) (e.history hist) v ∧
      ((∀ x ∈ s.fetched, x.element ≠ e) → e.bytes s.mem = v)) ∧
    (∀ x ∈ hist, Fits x.call x.flight.atomic x.flight.operand ∧
      Took s x.flight.origin x.call x.begun x.flight.operand) ∧
    (hist.map (·.flight.id)).Nodup ∧ (∀ d ∈ s.returned, ∃ x, d.Result s hist x) ∧
    ∀ steps t, (traced J).run (s, hist) steps = some t → hist <+: t.2 := by
  obtain ⟨hc, hk, hs⟩ := reachable_serial h
  have hserial := hs e ha hone
  exact ⟨⟨_, hserial.register, ha.after_landed hc hk hserial.order⟩,
    fun x hx => ⟨hc.entries x hx, hc.took x hx⟩, (List.nodup_append.mp hc.nodup).2.1,
    fun d hd => hc.result hk hd, fun steps t hrun => System.traced_run hrun⟩

end

-- ------------------------------
-- Two calls
-- ------------------------------

def onFirst (op : RmwOp) : RmwCall := ⟨op, 16, 8192, 1, 1⟩

def firstElement : Element := ⟨(1, 8192), .int⟩

def firstFlight (id : Nat) (origin : Fin 2) (op : AtomicOp) (operand : List UInt8) :
    Flight (pairJob ⟨true, true⟩) :=
  ⟨id, origin, ⟨pairWin, 1, 0, .int, op⟩, operand⟩

def upToFetch (c : RmwCall) (x : Flight (pairJob ⟨true, true⟩)) (bytes : List UInt8) :
    List (Step (pairJob ⟨true, true⟩)) :=
  [.call x.origin c, .act x.origin, .act x.origin, .fetch x bytes]

/-- The call of rank 0 returns after its update has landed, that of rank 1 has only fetched. -/
def twoCalls (c : RmwCall) (x y : Flight (pairJob ⟨true, true⟩)) (bytes bytes' : List UInt8) :
    List (Step (pairJob ⟨true, true⟩)) :=
  upToFetch c x bytes ++ [.land x, .act x.origin, .act x.origin, .act x.origin, .act x.origin] ++
    upToFetch c y bytes'

def InTurn (s : State J × List (Entry J)) : Step J → Prop
  | .fetch x bytes => bytes = s.1.serial x
  | .land x => ∀ y ∈ s.1.fetched.takeWhile (· ≠ x), y.element ≠ x.element
  | .call .. | .act _ | .get .. | .read _ => True

instance (s : State J × List (Entry J)) (a : Step J) : Decidable (InTurn s a) :=
  match a with
  | .fetch x bytes => inferInstanceAs (Decidable (bytes = s.1.serial x))
  | .land x =>
    inferInstanceAs (Decidable (∀ y ∈ s.1.fetched.takeWhile (· ≠ x), y.element ≠ x.element))
  | .call .. | .act _ | .get .. | .read _ => inferInstanceAs (Decidable True)

theorem InTurn.atomic {s : State J × List (Entry J)} {a : Step J} (h : InTurn s a) :
    SameOpAtomic s a := by
  cases a with
  | fetch x bytes => exact fun _ _ => h
  | land x => exact fun _ _ => h
  | call | act | get | read => trivial

theorem twoCalls_ok {m : Mem} {steps : List (Step (pairJob ⟨true, true⟩))}
    {t : State (pairJob ⟨true, true⟩) × List (Entry (pairJob ⟨true, true⟩))}
    (hrun : (traced _).runOk InTurn (start _ m, []) steps = some t)
    {x : Flight (pairJob ⟨true, true⟩)} {bytes : List UInt8}
    (hlog : t.1.log = [.landed x, .stored (0, 16) bytes])
    (hentries : firstElement.entries t.2 = t.2) :
    (atomicRuns _).Reachable t ∧ Alone firstElement t.1 t.2 := by
  refine ⟨System.Reachable.restrict_mono (fun _ _ => InTurn.atomic)
    (System.Reachable.runOk (.init ⟨⟨m, rfl⟩, rfl⟩) steps hrun), fun x hx => .inl ?_, ?_⟩
  · exact (Element.mem_entries.mp (hentries ▸ hx)).2
  · intro l bytes' hmem
    rw [hlog] at hmem
    simp only [List.mem_cons, reduceCtorEq, Change.stored.injEq, List.not_mem_nil, or_false,
      false_or] at hmem
    obtain ⟨rfl, rfl⟩ := hmem
    exact block_disjoint fun hrank => absurd hrank (by decide)

theorem adds_run : ∃ t, (traced (pairJob ⟨true, true⟩)).runOk InTurn (start _ fun _ => 0, [])
    (twoCalls (onFirst .fetchAndAdd) (firstFlight 0 0 .sum [1, 0, 0, 0])
      (firstFlight 1 1 .sum [1, 0, 0, 0]) [0, 0, 0, 0] [1, 0, 0, 0]) = some t ∧
    t.1.log = [.landed (firstFlight 0 0 .sum [1, 0, 0, 0]), .stored (0, 16) [0, 0, 0, 0]] ∧
    t.1.returned = [⟨(0 : Fin 2), onFirst .fetchAndAdd, 0⟩] ∧
    firstElement.entries t.2 = t.2 ∧
    t.2 = [⟨onFirst .fetchAndAdd, firstFlight 0 0 .sum [1, 0, 0, 0], [0, 0, 0, 0], 0⟩,
      ⟨onFirst .fetchAndAdd, firstFlight 1 1 .sum [1, 0, 0, 0], [1, 0, 0, 0], 2⟩] :=
  ⟨_, rfl, rfl, rfl, rfl, rfl⟩

def swapMem : Mem := fun l => if l = (0, 16) then 7 else if l = (1, 16) then 9 else 0

theorem swaps_run : ∃ t, (traced (pairJob ⟨true, true⟩)).runOk InTurn (start _ swapMem, [])
    (twoCalls (onFirst .swap) (firstFlight 0 0 .replace [7, 0, 0, 0])
      (firstFlight 1 1 .replace [9, 0, 0, 0]) [0, 0, 0, 0] [7, 0, 0, 0]) = some t ∧
    t.1.log = [.landed (firstFlight 0 0 .replace [7, 0, 0, 0]), .stored (0, 16) [0, 0, 0, 0]] ∧
    t.1.returned = [⟨(0 : Fin 2), onFirst .swap, 0⟩] ∧
    firstElement.entries t.2 = t.2 ∧
    t.2 = [⟨onFirst .swap, firstFlight 0 0 .replace [7, 0, 0, 0], [0, 0, 0, 0], 0⟩,
      ⟨onFirst .swap, firstFlight 1 1 .replace [9, 0, 0, 0], [7, 0, 0, 0], 2⟩] :=
  ⟨_, rfl, rfl, rfl, rfl, rfl⟩

theorem rmw_linearizable_adds : ∃ s hist v,
    (atomicRuns (pairJob ⟨true, true⟩)).Reachable (s, hist) ∧
    hist.map Entry.found = [[0, 0, 0, 0], [1, 0, 0, 0]] ∧
    Register Entry.update (firstElement.bytes s.initial) (firstElement.history hist) v ∧
    ∃ x, (⟨(0 : Fin 2), onFirst .fetchAndAdd, 0⟩ : Done (pairJob ⟨true, true⟩)).Result s hist x := by
  obtain ⟨⟨s, hist⟩, hrun, hlog, hret, hentries, rfl⟩ := adds_run
  obtain ⟨hr, ha⟩ := twoCalls_ok hrun hlog hentries
  obtain ⟨⟨v, hv, -⟩, -, -, hres, -⟩ := rmw_linearizable hr ha (by
    rw [Element.OneKind, hentries]
    simp [firstFlight])
  exact ⟨s, _, v, hr, rfl, hv, hres _ (hret ▸ List.mem_cons_self)⟩

-- ------------------------------
-- Additions and swaps
-- ------------------------------

section
variable {s : State J} {hist : List (Entry J)} {e : Element}

theorem RmwOp.sum_of_add {op : RmwOp} {a : AtomicOp} (h : op.rop = .ok a)
    (hadd : op.isSwap = false) : a = .sum := by
  cases op <;> cases h <;> first | rfl | exact absurd hadd (by decide)

theorem Fits.add {x : Entry J} (h : Fits x.call x.flight.atomic x.flight.operand)
    (hadd : x.call.op.isSwap = false) (v : List UInt8) :
    (leVal (x.update v) : ZMod (256 ^ x.flight.atomic.type.size)) = leVal v + x.call.value := by
  have hsum := RmwOp.sum_of_add h.op hadd
  have htype : x.flight.atomic.type = .int ∨ x.flight.atomic.type = .long := by
    rw [h.type, RmwOp.type]
    split <;> simp
  have hupd : x.update v = leBytes x.flight.atomic.type.size
      (leVal x.flight.operand + leVal v) := by
    unfold Entry.update Flight.update Atomic.update
    rw [hsum]
    rcases htype with ht | ht <;> rw [ht] <;> rfl
  have hpos : (0 : Int) < 256 ^ x.flight.atomic.type.size := Int.pow_pos (by decide)
  have hoperand : (leVal x.flight.operand : ZMod (256 ^ x.flight.atomic.type.size)) =
      x.call.value := by
    rw [h.value hadd, leVal_leBytes, ZMod.natCast_mod, ← Int.cast_natCast (R := ZMod _),
      Int.toNat_of_nonneg (Int.emod_nonneg _ hpos.ne')]
    exact (ZMod.intCast_eq_intCast_iff _ _ _).mpr (by simpa using Int.mod_modEq _ _)
  rw [hupd, leVal_leBytes, ZMod.natCast_mod, Nat.cast_add, hoperand, add_comm]

theorem Consistent.entry_fits (hc : Consistent s hist) {x : Entry J} (hx : x ∈ e.entries hist) :
    Fits x.call x.flight.atomic x.flight.operand ∧ x.flight.atomic.type = e.type := by
  obtain ⟨hmem, helem⟩ := Element.mem_entries.mp hx
  exact ⟨hc.entries x hmem, congrArg Element.type helem⟩

theorem Consistent.found_length (hc : Consistent s hist) {w : List UInt8}
    (hr : Register Entry.update (e.bytes s.initial) (e.history hist) w) {x : Entry J}
    (hx : x ∈ e.entries hist) : x.found.length = e.type.size := by
  refine (hr.found_inv (P := fun v => v.length = e.type.size) (bytesAt_length _ _ _)
    (List.forall_mem_map.mpr fun y hy hlen => ?_)).2 _ (List.mem_map_of_mem hx)
  obtain ⟨hfits, htype⟩ := hc.entry_fits hy
  exact htype ▸ Flight.update_length hfits.length (htype ▸ hlen)

theorem Consistent.oneKind (hc : Consistent s hist) {swap : Bool}
    (hkind : ∀ x ∈ e.entries hist, x.call.op.isSwap = swap) : e.OneKind hist := by
  have hop : ∀ x ∈ e.entries hist, x.flight.atomic.op = if swap then .replace else .sum := by
    intro x hx
    have hfits := (hc.entry_fits hx).1
    cases swap with
    | true => exact (RmwOp.rop_replace hfits.op).mpr (hkind x hx)
    | false => exact RmwOp.sum_of_add hfits.op (hkind x hx)
  exact fun x hx y hy => (hop x hx).trans (hop y hy).symm

theorem found_sum (h : (atomicRuns J).Reachable (s, hist)) (ha : Alone e s hist)
    (hadd : ∀ x ∈ e.entries hist, x.call.op.isSwap = false) {pre post : List (Entry J)}
    {x : Entry J} (hx : e.entries hist = pre ++ x :: post) :
    (leVal x.found : Int) =
      (leVal (e.bytes s.initial) + (pre.map (·.call.value)).sum) % 256 ^ e.type.size := by
  obtain ⟨hc, -, hs⟩ := reachable_serial h
  have hreg := (hs e ha (hc.oneKind hadd)).register
  have hlt := leVal_lt (hc.found_length hreg (x := x) (by simp [hx]))
  -- on numbers modulo the size of the element, the register is a sum
  have hsums := hreg.map (fun x v => v + (x.call.value : ZMod (256 ^ e.type.size)))
    (fun v => (leVal v : ZMod (256 ^ e.type.size))) (List.forall_mem_map.mpr fun y hy => by
      obtain ⟨hfits, htype⟩ := hc.entry_fits hy
      exact htype ▸ hfits.add (hadd y hy) y.found)
  rw [Element.history, hx, List.map_append, List.map_append, List.map_cons, List.map_cons] at hsums
  have hfound := (hsums.at_entry rfl).sum_eq
  have hmod : ((leVal x.found : Int) : ZMod (256 ^ e.type.size)) =
      ((leVal (e.bytes s.initial) + (pre.map (·.call.value)).sum : Int) :
        ZMod (256 ^ e.type.size)) := by
    simpa [Function.comp_def, Int.cast_list_sum] using hfound
  have hint := (ZMod.intCast_eq_intCast_iff _ _ _).mp hmod
  rw [Int.ModEq, Int.emod_eq_of_lt (by omega) (by exact_mod_cast hlt)] at hint
  simpa using hint

/-- Calls that add find partial sums. If each adds one and they are not more than the
element can count, no two of them find the same number. What it found is the result of a
call that has returned. -/
theorem tickets (h : (atomicRuns J).Reachable (s, hist)) (ha : Alone e s hist)
    (hadd : ∀ x ∈ e.entries hist, x.call.op.isSwap = false) :
    (∀ pre x post, e.entries hist = pre ++ x :: post → (leVal x.found : Int) =
      (leVal (e.bytes s.initial) + (pre.map (·.call.value)).sum) % 256 ^ e.type.size) ∧
    ((∀ x ∈ e.entries hist, x.call.value = 1) → (e.entries hist).length ≤ 256 ^ e.type.size →
      ((e.entries hist).map Entry.found).Nodup) ∧
    ∀ d ∈ s.returned, ∃ x, d.Result s hist x := by
  have hsum : ∀ pre x post, e.entries hist = pre ++ x :: post → (leVal x.found : Int) = _ :=
    fun pre x post => found_sum h ha hadd
  obtain ⟨hc, hk, -⟩ := reachable_serial h
  refine ⟨hsum, fun hone hfew => ?_, fun d hd => hc.result hk hd⟩
  have hat : ∀ i (hi : i < (e.entries hist).length), (leVal (e.entries hist)[i].found : Int) =
      (leVal (e.bytes s.initial) + i) % 256 ^ e.type.size := by
    intro i hi
    rw [hsum ((e.entries hist).take i) _ ((e.entries hist).drop (i + 1)) (by simp)]
    have hones : ((e.entries hist).take i).map (·.call.value) = List.replicate i 1 :=
      List.eq_replicate_iff.mpr ⟨by simp [hi.le], List.forall_mem_map.mpr fun x hx =>
        hone x (List.mem_of_mem_take hx)⟩
    rw [hones, List.sum_replicate, nsmul_one]
  rw [List.Nodup, List.pairwise_iff_getElem]
  intro i j hi hj hij heq
  simp only [List.length_map, List.getElem_map] at hi hj heq
  have hcong := (hat i hi).symm.trans ((congrArg (fun v => (leVal v : Int)) heq).trans (hat j hj))
  have hdvd := Int.ModEq.dvd hcong
  have hle := Int.le_of_dvd (by omega) hdvd
  have : ((e.entries hist).length : Int) ≤ 256 ^ e.type.size := by exact_mod_cast hfew
  omega

theorem tickets_adds : ∃ s hist, (atomicRuns (pairJob ⟨true, true⟩)).Reachable (s, hist) ∧
    (firstElement.entries hist).length = 2 ∧
    ((firstElement.entries hist).map Entry.found).Nodup ∧
    ∃ x, (⟨(0 : Fin 2), onFirst .fetchAndAdd, 0⟩ : Done (pairJob ⟨true, true⟩)).Result s hist x := by
  obtain ⟨⟨s, hist⟩, hrun, hlog, hret, hentries, rfl⟩ := adds_run
  obtain ⟨hr, ha⟩ := twoCalls_ok hrun hlog hentries
  obtain ⟨-, hnodup, hres⟩ := tickets hr ha (by rw [hentries]; simp [onFirst, RmwOp.isSwap])
  refine ⟨s, _, hr, rfl, hnodup ?_ (by decide), hres _ (hret ▸ List.mem_cons_self)⟩
  rw [hentries]
  simp [onFirst]

/-- Calls that swap hand the values of the element on: each finds the operand of the one
before it, and the last operand is left. A call puts in what `ploc` held in the course of the
call, and has what it found there when it has returned. -/
theorem swaps_pass_on (h : (atomicRuns J).Reachable (s, hist)) (ha : Alone e s hist)
    (hswap : ∀ x ∈ e.entries hist, x.call.op.isSwap = true) :
    (∃ v, e.bytes s.initial :: (e.entries hist).map (·.flight.operand) =
        (e.entries hist).map Entry.found ++ [v] ∧
      ((∀ x ∈ s.fetched, x.element ≠ e) → e.bytes s.mem = v)) ∧
    (∀ x ∈ e.entries hist, ∃ seen, seen <+: s.log ∧ x.begun ≤ seen.length ∧
      bytesAt (memory s.initial seen) (x.flight.origin, x.call.ploc) x.call.op.type.size =
        x.flight.operand) ∧
    ∀ d ∈ s.returned, ∃ x, d.Result s hist x := by
  obtain ⟨hc, hk, hs⟩ := reachable_serial h
  have hserial := hs e ha (hc.oneKind hswap)
  refine ⟨⟨_, ?_, ha.after_landed hc hk hserial.order⟩, fun x hx =>
    hc.took x (Element.mem_entries.mp hx).1 (hswap x hx), fun d hd => hc.result hk hd⟩
  have hreplace : ∀ x ∈ e.entries hist, x.update x.found = x.flight.operand := by
    intro x hx
    have hop := (RmwOp.rop_replace (hc.entry_fits hx).1.op).mpr (hswap x hx)
    rw [Entry.update, Flight.update, Atomic.update, hop]
  have hreg := hserial.register.map (fun x _ => x.flight.operand) id
    (List.forall_mem_map.mpr hreplace)
  simpa [Element.history, Function.comp_def] using hreg.replace_eq

theorem swaps_pass_on_pair : ∃ s hist, (atomicRuns (pairJob ⟨true, true⟩)).Reachable (s, hist) ∧
    (firstElement.entries hist).map Entry.found = [[0, 0, 0, 0], [7, 0, 0, 0]] ∧
    (∃ v, firstElement.bytes s.initial :: (firstElement.entries hist).map (·.flight.operand) =
      (firstElement.entries hist).map Entry.found ++ [v]) ∧
    ∃ x, (⟨(0 : Fin 2), onFirst .swap, 0⟩ : Done (pairJob ⟨true, true⟩)).Result s hist x := by
  obtain ⟨⟨s, hist⟩, hrun, hlog, hret, hentries, rfl⟩ := swaps_run
  obtain ⟨hr, ha⟩ := twoCalls_ok hrun hlog hentries
  obtain ⟨⟨v, hv, -⟩, -, hres⟩ := swaps_pass_on hr ha (by
    rw [hentries]
    simp [onFirst, RmwOp.isSwap])
  exact ⟨s, _, hr, rfl, ⟨v, hv⟩, hres _ (hret ▸ List.mem_cons_self)⟩

end

end ArmciMpi.Rmw
