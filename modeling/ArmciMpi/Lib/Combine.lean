import Mathlib.Data.List.Perm.Basic
import Mathlib.Order.Lattice

/-!
# Reductions

`Combines op l r` says that `r` is what combining the values of `l` with `op` in
some order and some bracketing gives. The operator may abort. A reduction that is
free to choose both gives any such `r`, so what holds of all of them is what a
caller can rely on: `Combines.closed` keeps a property and `Combines.map` looks at
one part of each value. An operator that picks the better of its arguments may
return any of the best values and nothing else (`combines_pick_iff`).
-/

namespace Lib

variable {α β : Type} {op : α → α → Except String α} {S : α → Prop} {l l' : List α} {r : α}

inductive Combines (op : α → α → Except String α) : List α → α → Prop
  | one (a : α) : Combines op [a] a
  | join {l l' : List α} {a b c : α} (ha : Combines op l a) (hb : Combines op l' b)
      (hc : op a b = .ok c) : Combines op (l ++ l') c
  | reorder {l l' : List α} {a : α} (ha : Combines op l a) (hp : l.Perm l') : Combines op l' a

namespace Combines

theorem length_pos (h : Combines op l r) : 0 < l.length := by
  induction h with
  | one a => exact Nat.one_pos
  | join ha hb hc iha ihb =>
    rw [List.length_append]
    omega
  | reorder ha hp ih => rwa [← hp.length_eq]

theorem of_one {a : α} (h : Combines op l r) (hl : l = [a]) : r = a := by
  induction h generalizing a with
  | one b => exact (List.cons.inj hl).1
  | join ha hb hc iha ihb =>
    have hlen := congrArg List.length hl
    rw [List.length_append, List.length_singleton] at hlen
    have := ha.length_pos
    have := hb.length_pos
    omega
  | reorder ha hp ih =>
    subst hl
    exact ih (List.perm_singleton.mp hp)

theorem closed (hop : ∀ {a b c}, S a → S b → op a b = .ok c → S c) (h : Combines op l r)
    (hl : ∀ a ∈ l, S a) : S r := by
  induction h with
  | one a => exact hl a List.mem_cons_self
  | join ha hb hc iha ihb =>
    exact hop (iha fun a h => hl a (List.mem_append_left _ h))
      (ihb fun b h => hl b (List.mem_append_right _ h)) hc
  | reorder ha hp ih => exact ih fun a h => hl a (hp.mem_iff.mp h)

theorem exists_op (hop : ∀ {a b c}, S a → S b → op a b = .ok c → S c) (h : Combines op l r)
    (hl : ∀ a ∈ l, S a) (htwo : 2 ≤ l.length) : ∃ a b, S a ∧ S b ∧ op a b = .ok r := by
  induction h with
  | one a => exact absurd htwo (by simp)
  | @join l l' a b c ha hb hc iha ihb =>
    exact ⟨a, b, ha.closed hop fun a h => hl a (List.mem_append_left _ h),
      hb.closed hop fun b h => hl b (List.mem_append_right _ h), hc⟩
  | reorder ha hp ih =>
    exact ih (fun a h => hl a (hp.mem_iff.mp h)) (by rwa [hp.length_eq])

theorem map {op' : β → β → Except String β} {f : α → β}
    (hclosed : ∀ {a b c}, S a → S b → op a b = .ok c → S c)
    (hop : ∀ {a b c}, S a → S b → op a b = .ok c → op' (f a) (f b) = .ok (f c))
    (h : Combines op l r) (hl : ∀ a ∈ l, S a) : Combines op' (l.map f) (f r) := by
  induction h with
  | one a => exact .one _
  | @join l l' a b c ha hb hc iha ihb =>
    have hla := fun x hx => hl x (List.mem_append_left l' hx)
    have hlb := fun x hx => hl x (List.mem_append_right l hx)
    rw [List.map_append]
    exact .join (iha hla) (ihb hlb) (hop (ha.closed hclosed hla) (hb.closed hclosed hlb) hc)
  | reorder ha hp ih => exact .reorder (ih fun a h => hl a (hp.mem_iff.mp h)) (hp.map f)

theorem exists_of_total (hop : ∀ {a b}, S a → S b → ∃ c, op a b = .ok c ∧ S c) (hl : ∀ a ∈ l, S a)
    (hne : l ≠ []) : ∃ r, Combines op l r ∧ S r := by
  induction l with
  | nil => exact absurd rfl hne
  | cons a l ih =>
    have ha := hl a List.mem_cons_self
    by_cases hnil : l = []
    · subst hnil
      exact ⟨a, .one a, ha⟩
    · obtain ⟨b, hb, hsb⟩ := ih (fun x hx => hl x (List.mem_cons_of_mem a hx)) hnil
      obtain ⟨c, hc, hsc⟩ := hop ha hsb
      exact ⟨c, .join (.one a) hb hc, hsc⟩

end Combines

theorem combines_congr {op' : α → α → Except String α}
    (hclosed : ∀ {a b c}, S a → S b → op a b = .ok c → S c)
    (hop : ∀ {a b}, S a → S b → op a b = op' a b) (hl : ∀ a ∈ l, S a) :
    Combines op l r ↔ Combines op' l r := by
  have hclosed' : ∀ {a b c}, S a → S b → op' a b = .ok c → S c :=
    fun ha hb hc => hclosed ha hb ((hop ha hb).trans hc)
  constructor
  · intro h
    have hmap : Combines op' (l.map id) (id r) :=
      h.map hclosed (fun ha hb hc => (hop ha hb).symm.trans hc) hl
    rwa [List.map_id] at hmap
  · intro h
    have hmap : Combines op (l.map id) (id r) :=
      h.map hclosed' (fun ha hb hc => (hop ha hb).trans hc) hl
    rwa [List.map_id] at hmap

-- ------------------------------
-- The better of two values
-- ------------------------------

section
variable {K : Type} [LinearOrder K] {score : α → K} {a b c : α}

def pick (score : α → K) (a b : α) : α := if score b < score a then a else b

theorem pick_eq_or (score : α → K) (a b : α) : pick score a b = a ∨ pick score a b = b := by
  unfold pick
  split
  · exact .inl rfl
  · exact .inr rfl

theorem le_score_pick (score : α → K) (a b : α) :
    score a ≤ score (pick score a b) ∧ score b ≤ score (pick score a b) := by
  unfold pick
  split
  · rename_i h
    exact ⟨le_refl _, h.le⟩
  · rename_i h
    exact ⟨not_lt.mp h, le_refl _⟩

theorem pick_assoc (score : α → K) (a b c : α) :
    pick score (pick score a b) c = pick score a (pick score b c) := by
  by_cases hab : score b < score a
  · by_cases hbc : score c < score b
    · simp [pick, hab, hbc, hbc.trans hab]
    · simp [pick, hab, hbc]
  · by_cases hbc : score c < score b
    · simp [pick, hab, hbc]
    · have hac : ¬ score c < score a := fun h => hab ((not_lt.mp hbc).trans_lt h)
      simp [pick, hab, hbc, hac]

theorem pick_comm_iff : pick score a b = pick score b a ↔ (score a = score b → a = b) := by
  rcases lt_trichotomy (score a) (score b) with h | h | h
  · simp [pick, h, h.le.not_gt, h.ne]
  · simp [pick, h, eq_comm]
  · simp [pick, h, h.le.not_gt, h.ne']

theorem combines_pick_iff : Combines (fun a b => .ok (pick score a b)) l r ↔
    r ∈ l ∧ ∀ a ∈ l, score a ≤ score r := by
  constructor
  · intro h
    induction h with
    | one a => exact ⟨List.mem_cons_self, fun b hb => (congrArg score (List.mem_singleton.mp hb)).le⟩
    | @join l l' a b c ha hb hc iha ihb =>
      obtain rfl := Except.ok.inj hc
      obtain ⟨hac, hbc⟩ := le_score_pick score a b
      refine ⟨?_, fun x hx => ?_⟩
      · rcases pick_eq_or score a b with heq | heq
        · rw [heq]
          exact List.mem_append_left _ iha.1
        · rw [heq]
          exact List.mem_append_right _ ihb.1
      · rcases List.mem_append.mp hx with hx | hx
        · exact (iha.2 x hx).trans hac
        · exact (ihb.2 x hx).trans hbc
    | reorder ha hp ih =>
      exact ⟨hp.mem_iff.mp ih.1, fun a ha => ih.2 a (hp.mem_iff.mpr ha)⟩
  · -- a best value that comes last wins against what the others give
    rintro ⟨hr, hbest⟩
    obtain ⟨s, t, rfl⟩ := List.append_of_mem hr
    have hp : (s ++ t ++ [r]).Perm (s ++ r :: t) := by
      rw [List.append_assoc]
      exact List.Perm.append_left s (List.perm_append_singleton r t)
    by_cases hnil : s ++ t = []
    · obtain ⟨rfl, rfl⟩ := List.append_eq_nil_iff.mp hnil
      exact .one r
    · have hpick : ∀ {a b}, score a ≤ score r → score b ≤ score r →
          ∃ c, (.ok (pick score a b) : Except String α) = .ok c ∧ score c ≤ score r := by
        intro a b ha hb
        refine ⟨_, rfl, ?_⟩
        rcases pick_eq_or score a b with heq | heq
        · rwa [heq]
        · rwa [heq]
      obtain ⟨c, hc, hle⟩ := Combines.exists_of_total hpick
        (fun a ha => hbest a (hp.mem_iff.mp (List.mem_append_left [r] ha))) hnil
      exact .reorder (.join hc (.one r) (congrArg Except.ok (if_neg (not_lt.mpr hle)))) hp

end

end Lib
