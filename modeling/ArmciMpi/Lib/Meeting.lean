import Mathlib.Algebra.Order.Monoid.Unbundled.Basic
import Mathlib.Data.Finset.Insert
import Mathlib.Data.Fintype.Basic
import Mathlib.Logic.Relation

/-!
# Processes that meet at the end of each phase

A process that has come to the end of a phase flushes its regions one after the
other, waits for all others, synchronises its regions one after the other, and
in one variant waits for all others again. It then begins the next phase, while
others may still be anywhere after the place where it has met them.
-/

namespace Lib.Copies

variable {P R L C V : Type}

/-- How the cells lie in lines, and what the processes do at the end of a phase. -/
structure Layout (P R L C : Type) where
  line : C → L
  home : L → P
  region : L → R
  unified : R → Bool
  /-- The regions a process may also synchronise within a phase. -/
  accesses : P → R → Prop
  flushes : P → List R
  syncs : P → List R
  /-- The processes meet again after they have synchronised. -/
  twice : Bool

-- ------------------------------
-- The end of a phase
-- ------------------------------

inductive Stage (R : Type)
  | running
  | flushing (rest : List R)
  | first
  | syncing (rest : List R)
  | second

namespace Stage

def Cleared (r : R) : Stage R → Prop
  | running => False
  | flushing rest => r ∉ rest
  | first | syncing _ | second => True

def Arrived : Stage R → Prop
  | running | flushing _ => False
  | first | syncing _ | second => True

def Left : Stage R → Prop
  | running | flushing _ | first => False
  | syncing _ | second => True

def Synced (r : R) : Stage R → Prop
  | running | flushing _ | first => False
  | syncing rest => r ∉ rest
  | second => True

def Again : Stage R → Prop
  | running | flushing _ | first | syncing _ => False
  | second => True

end Stage

structure Clock (P R : Type) where
  stage : P → Stage R
  done : P → Nat

inductive Event (R : Type)
  | quiet
  | flush (r : R)
  | sync (r : R)

namespace Clock

/-- The process has come so far at the end of phase `k`. -/
def Reached (t : Clock P R) (at_ : Stage R → Prop) (p : P) (k : Nat) : Prop :=
  k < t.done p ∨ k = t.done p ∧ at_ (t.stage p)

theorem Reached.imp {t : Clock P R} {at_ at_' : Stage R → Prop} (h : t.Reached at_ p k)
    (himp : ∀ st, at_ st → at_' st) : t.Reached at_' p k :=
  h.imp_right fun h => ⟨h.1, himp _ h.2⟩

variable [DecidableEq P]

def goto (t : Clock P R) (p : P) (st : Stage R) : Clock P R :=
  { t with stage := Function.update t.stage p st }

def finish (t : Clock P R) (p : P) : Clock P R :=
  ⟨Function.update t.stage p .running, Function.update t.done p (t.done p + 1)⟩

inductive Tick (D : Layout P R L C) (t : Clock P R) (p : P) : Event R → Clock P R → Prop
  | enter (h : t.stage p = .running) : Tick D t p .quiet (t.goto p (.flushing (D.flushes p)))
  | flush (h : t.stage p = .flushing (r :: rest)) :
      Tick D t p (.flush r) (t.goto p (.flushing rest))
  | arrive (h : t.stage p = .flushing []) : Tick D t p .quiet (t.goto p .first)
  | leave (h : t.stage p = .first) (hall : ∀ q, t.Reached Stage.Arrived q (t.done p)) :
      Tick D t p .quiet (t.goto p (.syncing (D.syncs p)))
  | sync (h : t.stage p = .syncing (r :: rest)) : Tick D t p (.sync r) (t.goto p (.syncing rest))
  | again (h : t.stage p = .syncing []) (htwice : D.twice = true) :
      Tick D t p .quiet (t.goto p .second)
  | once (h : t.stage p = .syncing []) (htwice : D.twice = false) : Tick D t p .quiet (t.finish p)
  | final (h : t.stage p = .second) (hall : ∀ q, t.Reached Stage.Again q (t.done p)) :
      Tick D t p .quiet (t.finish p)

/-- Nobody is ahead of one who has not yet come to the place where they meet. -/
structure Inv (D : Layout P R L C) (t : Clock P R) : Prop where
  wait : ∀ p q k, t.Reached Stage.Left p k → t.Reached Stage.Arrived q k
  again : D.twice = true → ∀ p q k, k < t.done p → t.Reached Stage.Again q k

structure Stable (at_ : Stage R → Prop) : Prop where
  running : ¬ at_ .running
  flush : at_ (.flushing (r :: rest)) → at_ (.flushing rest)
  arrive : at_ (.flushing []) → at_ .first
  leave : at_ .first → at_ (.syncing rest)
  sync : at_ (.syncing (r :: rest)) → at_ (.syncing rest)
  again : at_ (.syncing []) → at_ .second

theorem stable_arrived : Stable (Stage.Arrived : Stage R → Prop) := by
  constructor <;> simp [Stage.Arrived]

theorem stable_again : Stable (Stage.Again : Stage R → Prop) := by
  constructor <;> simp [Stage.Again]

section
variable {D : Layout P R L C} {t t' : Clock P R} {p q : P} {e : Event R} {k : Nat}
  {at_ : Stage R → Prop}

theorem reached_goto (st : Stage R) : (t.goto p st).Reached at_ q k ↔
    if q = p then k < t.done p ∨ k = t.done p ∧ at_ st else t.Reached at_ q k := by
  unfold Reached goto
  split
  · next h => simp [h]
  · next h => simp [h]

theorem reached_finish : (t.finish p).Reached at_ q k ↔
    if q = p then k ≤ t.done p ∨ k = t.done p + 1 ∧ at_ .running else t.Reached at_ q k := by
  unfold Reached finish
  split
  · next h =>
    subst h
    simp only [Function.update_self, Nat.lt_succ_iff]
  · next h => simp [h]

theorem Reached.goto_self {st : Stage R} (h : t.Reached at_ p k) (hst : at_ (t.stage p) → at_ st) :
    (t.goto p st).Reached at_ p k :=
  (reached_goto st).mpr ((if_pos rfl).mpr (h.imp_right fun h => ⟨h.1, hst h.2⟩))

theorem Reached.finish_self (h : t.Reached at_ p k) : (t.finish p).Reached at_ p k :=
  reached_finish.mpr ((if_pos rfl).mpr (.inl (h.elim Nat.le_of_lt (·.1.le))))

theorem Tick.other (h : Tick D t p e t') (hq : q ≠ p) :
    t'.Reached at_ q k ↔ t.Reached at_ q k := by
  cases h <;> simp [reached_goto, reached_finish, hq]

theorem Tick.mono (h : Tick D t p e t') (hat : Stable at_) (hq : t.Reached at_ q k) :
    t'.Reached at_ q k := by
  by_cases hqp : q = p
  · subst hqp
    cases h with
    | enter h => exact hq.goto_self fun hk => absurd (h ▸ hk) hat.running
    | flush h => exact hq.goto_self fun hk => hat.flush (h ▸ hk)
    | arrive h => exact hq.goto_self fun hk => hat.arrive (h ▸ hk)
    | leave h hall => exact hq.goto_self fun hk => hat.leave (h ▸ hk)
    | sync h => exact hq.goto_self fun hk => hat.sync (h ▸ hk)
    | again h => exact hq.goto_self fun hk => hat.again (h ▸ hk)
    | once h => exact hq.finish_self
    | final h hall => exact hq.finish_self
  · exact (h.other hqp).mpr hq

theorem Tick.done_le (h : Tick D t p e t') (q : P) : t.done q ≤ t'.done q := by
  by_cases hq : q = p
  · subst hq
    cases h <;> simp [goto, finish]
  · cases h <;> simp [goto, finish, hq]

theorem Tick.left_of (h : Tick D t p e t') (hq : t'.Reached Stage.Left q k) :
    t.Reached Stage.Left q k ∨ ∀ q', t.Reached Stage.Arrived q' k := by
  by_cases hqp : q = p
  · subst hqp
    unfold Reached
    cases h with
    | leave h hall =>
      rcases (if_pos rfl).mp ((reached_goto _).mp hq) with hk | ⟨rfl, -⟩
      · exact .inl (.inl hk)
      · exact .inr hall
    | _ h =>
      refine .inl ?_
      simpa [reached_goto, reached_finish, Stage.Left, h, Nat.le_iff_lt_or_eq] using hq
  · exact .inl ((h.other hqp).mp hq)

theorem Tick.cleared_of (h : Tick D t p e t') (hr : r ∈ D.flushes q)
    (hq : t'.Reached (Stage.Cleared r) q k) :
    t.Reached (Stage.Cleared r) q k ∨ q = p ∧ e = .flush r := by
  by_cases hqp : q = p
  · subst hqp
    unfold Reached
    cases h with
    | @flush r' rest h =>
      by_cases heq : r' = r
      · exact .inr ⟨rfl, heq ▸ rfl⟩
      · refine .inl ?_
        simpa [reached_goto, Stage.Cleared, h, Ne.symm heq] using hq
    | _ h =>
      refine .inl ?_
      simpa [reached_goto, reached_finish, Stage.Cleared, h, hr, Nat.le_iff_lt_or_eq] using hq
  · exact .inl ((h.other hqp).mp hq)

theorem Tick.synced_of (h : Tick D t p e t') (hr : r ∈ D.syncs q)
    (hq : t'.Reached (Stage.Synced r) q k) :
    t.Reached (Stage.Synced r) q k ∨ q = p ∧ e = .sync r := by
  by_cases hqp : q = p
  · subst hqp
    unfold Reached
    cases h with
    | @sync r' rest h =>
      by_cases heq : r' = r
      · exact .inr ⟨rfl, heq ▸ rfl⟩
      · refine .inl ?_
        simpa [reached_goto, Stage.Synced, h, Ne.symm heq] using hq
    | _ h =>
      refine .inl ?_
      simpa [reached_goto, reached_finish, Stage.Synced, h, hr, Nat.le_iff_lt_or_eq] using hq
  · exact .inl ((h.other hqp).mp hq)

theorem Tick.inv (h : Tick D t p e t') (ht : Inv D t) : Inv D t' where
  wait p' q k hleft := by
    rcases h.left_of hleft with hleft | hall
    · exact h.mono stable_arrived (ht.wait p' q k hleft)
    · exact h.mono stable_arrived (hall q)
  again htwice p' q k hk := by
    apply h.mono stable_again
    by_cases hdone : k < t.done p'
    · exact ht.again htwice p' q k hdone
    · cases h with
      | once h hone => exact absurd (hone.symm.trans htwice) Bool.false_ne_true
      | final h hall =>
        by_cases hp : p' = p
        · subst hp
          simp only [finish, Function.update_self, Nat.lt_succ_iff] at hk
          rw [Nat.le_antisymm hk (Nat.not_lt.mp hdone)]
          exact hall q
        · simp only [finish, Function.update_of_ne hp] at hk
          exact absurd hk hdone
      | _ => exact absurd hk hdone

end

end Clock

def Layout.needed (D : Layout P R L C) : Nat := if D.twice then 1 else 2

namespace Clock

variable {D : Layout P R L C} {t : Clock P R} {p : P} {k : Nat}

theorem Inv.cleared (ht : Inv D t) (h : k < t.done p) (r : R) (q : P) :
    t.Reached (Stage.Cleared r) q k :=
  (ht.wait p q k (.inl h)).imp fun st => by cases st <;> simp [Stage.Arrived, Stage.Cleared]

theorem Inv.cleared_of_synced (ht : Inv D t) (h : t.Reached (Stage.Synced r) p k) (r' : R) (q : P) :
    t.Reached (Stage.Cleared r') q k := by
  have hleft : t.Reached Stage.Left p k :=
    h.imp fun st => by cases st <;> simp [Stage.Synced, Stage.Left]
  exact (ht.wait p q k hleft).imp fun st => by cases st <;> simp [Stage.Arrived, Stage.Cleared]

/-- With a second meeting everyone has synchronised when the next phase begins, without
it only when the phase after that begins. -/
theorem Inv.synced (ht : Inv D t) (h : k + D.needed ≤ t.done p) (r : R) (q : P) :
    t.Reached (Stage.Synced r) q k := by
  unfold Layout.needed at h
  split at h
  · next htwice =>
    exact (ht.again htwice p q k h).imp fun st => by cases st <;> simp [Stage.Again, Stage.Synced]
  · rcases ht.wait p q (k + 1) (.inl h) with hlt | ⟨heq, -⟩
    · exact .inl (Nat.lt_of_succ_lt hlt)
    · exact .inl (Nat.lt_of_lt_of_eq (Nat.lt_succ_self k) heq)

end Clock

-- ------------------------------
-- A line that is not synchronised
-- ------------------------------

namespace Clock

section
variable [DecidableEq P] {D : Layout P R L C} {t : Clock P R} {p : P} {l : L}

def Idle (D : Layout P R L C) (l : L) (t t' : Clock P R) : Prop :=
  ∃ p e, Tick D t p e t' ∧ ¬ (p = D.home l ∧ e = .sync (D.region l))

open Relation

theorem goto_goto (t : Clock P R) (p : P) (st st' : Stage R) :
    (t.goto p st).goto p st' = t.goto p st' := by
  simp [goto]

theorem goto_stage (t : Clock P R) (p : P) (st : Stage R) : (t.goto p st).stage p = st := by
  simp [goto]

theorem idle_flushes (t : Clock P R) (p : P) (rest : List R) :
    ReflTransGen (Idle D l) (t.goto p (.flushing rest)) (t.goto p .first) := by
  induction rest with
  | nil =>
    refine .single ⟨p, .quiet, ?_, by simp⟩
    rw [← goto_goto t p (.flushing []) .first]
    exact .arrive (goto_stage ..)
  | cons r rest ih =>
    refine .head ⟨p, .flush r, ?_, by simp⟩ ih
    rw [← goto_goto t p (.flushing (r :: rest)) (.flushing rest)]
    exact .flush (goto_stage ..)

theorem idle_arrive (h : t.stage p = .running) :
    ReflTransGen (Idle D l) t (t.goto p .first) :=
  .head ⟨p, .quiet, .enter h, by simp⟩ (idle_flushes t p _)

theorem idle_syncs (hone : D.twice = false) (t : Clock P R) (p : P) (rest : List R)
    (hrest : p = D.home l → D.region l ∉ rest) :
    ReflTransGen (Idle D l) (t.goto p (.syncing rest)) (t.finish p) := by
  induction rest with
  | nil =>
    refine .single ⟨p, .quiet, ?_, by simp⟩
    have hfinish : t.finish p = (t.goto p (.syncing [])).finish p := by simp [finish, goto]
    rw [hfinish]
    exact .once (goto_stage ..) hone
  | cons r rest ih =>
    refine .head ⟨p, .sync r, ?_, ?_⟩ (ih fun hp hmem => hrest hp (List.mem_cons_of_mem r hmem))
    · rw [← goto_goto t p (.syncing (r :: rest)) (.syncing rest)]
      exact .sync (goto_stage ..)
    · rintro ⟨hp, he⟩
      cases he
      exact hrest hp List.mem_cons_self

theorem idle_finish (hone : D.twice = false) (h : t.stage p = .first)
    (hall : ∀ q, t.Reached Stage.Arrived q (t.done p))
    (hsync : p = D.home l → D.region l ∉ D.syncs p) :
    ReflTransGen (Idle D l) t (t.finish p) :=
  .head ⟨p, .quiet, .leave h hall, by simp⟩ (idle_syncs hone t p _ hsync)

def part (S : Finset P) (st st' : Stage R) (k k' : Nat) : Clock P R :=
  ⟨fun p => if p ∈ S then st else st', fun p => if p ∈ S then k else k'⟩

theorem part_univ [Fintype P] (st st' : Stage R) (k k' : Nat) :
    (part Finset.univ st st' k k' : Clock P R) = ⟨fun _ => st, fun _ => k⟩ := by
  simp [part]

theorem part_goto {S : Finset P} (st st' : Stage R) (k : Nat) :
    (part S st st' k k).goto p st = part (insert p S) st st' k k := by
  simp only [goto, part, Clock.mk.injEq]
  constructor <;> funext q <;> by_cases hq : q = p <;> simp [hq]

theorem part_finish {S : Finset P} (hp : p ∉ S) (st : Stage R) (k : Nat) :
    (part S .running st (k + 1) k).finish p = part (insert p S) .running st (k + 1) k := by
  simp only [finish, part, Clock.mk.injEq]
  constructor <;> funext q <;> by_cases hq : q = p <;> simp [hq, hp]

variable [Fintype P]

theorem idle_meet (D : Layout P R L C) (l : L) (k : Nat) :
    ReflTransGen (Idle D l) ⟨fun _ => .running, fun _ => k⟩ ⟨fun _ => .first, fun _ => k⟩ := by
  have hsome : ∀ S : Finset P, ReflTransGen (Idle D l) ⟨fun _ => .running, fun _ => k⟩
      (part S .first .running k k) := by
    intro S
    induction S using Finset.induction_on with
    | empty => simpa [part] using .refl
    | insert p S hp ih =>
      rw [← part_goto]
      exact ih.trans (idle_arrive (if_neg hp))
  rw [← part_univ .first .running k k]
  exact hsome Finset.univ

theorem idle_round (hone : D.twice = false) (hsync : D.region l ∉ D.syncs (D.home l)) (k : Nat) :
    ReflTransGen (Idle D l) ⟨fun _ => .running, fun _ => k⟩
      ⟨fun _ => .running, fun _ => k + 1⟩ := by
  have hsome : ∀ S : Finset P, ReflTransGen (Idle D l) ⟨fun _ => .first, fun _ => k⟩
      (part S .running .first (k + 1) k) := by
    intro S
    induction S using Finset.induction_on with
    | empty => simpa [part] using .refl
    | insert p S hp ih =>
      rw [← part_finish hp]
      refine ih.trans (idle_finish hone (if_neg hp) (fun q => ?_) fun hp => hp ▸ hsync)
      by_cases hq : q ∈ S <;> simp [Reached, part, hq, hp, Stage.Arrived]
  rw [← part_univ .running .first (k + 1) k]
  exact (idle_meet D l k).trans (hsome Finset.univ)

theorem idle_rounds (hone : D.twice = false) (hsync : D.region l ∉ D.syncs (D.home l)) (k : Nat) :
    ReflTransGen (Idle D l) ⟨fun _ => .running, fun _ => 0⟩ ⟨fun _ => .running, fun _ => k⟩ := by
  induction k with
  | zero => exact .refl
  | succ k ih => exact ih.trans (idle_round hone hsync k)

end

end Clock

end Lib.Copies
