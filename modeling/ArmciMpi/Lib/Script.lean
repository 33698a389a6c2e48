import Mathlib.Data.List.Basic

/-!
# Programs that emit actions and may abort

A script reads the actions emitted before it, emits more of them and returns
a value or aborts with a message. The actions emitted before an abort are
kept. Nothing a script has emitted can be taken back: the second component of
a run holds only what the script itself emitted.

The rules below compute a run from the runs of its parts; `bind_eq_ok` takes
the run of a sequence apart again. `Emits` bounds what a script emits whether
it returns or aborts. `Triple` says what holds of a state that the emitted
actions drive, when every action must be allowed in the state it meets; it has
one rule for each way to build a script.
-/

namespace Lib

def Script (A α : Type) : Type := List A → Except String α × List A

namespace Script

variable {A α β γ : Type}

instance : Monad (Script A) where
  pure x := fun _ => (.ok x, [])
  bind p q := fun h =>
    match p h with
    | (.error e, a) => (.error e, a)
    | (.ok x, a) => ((q x (h ++ a)).1, a ++ (q x (h ++ a)).2)

def emit (a : A) : Script A Unit := fun _ => (.ok (), [a])

def abort (msg : String) : Script A α := fun _ => (.error msg, [])

def history : Script A (List A) := fun h => (.ok h, [])

/-- A computation that emits nothing and does not look at the history. -/
def lift (x : Except String α) : Script A α := fun _ => (x, [])

def require (c : Prop) [Decidable c] (msg : String) : Script A Unit :=
  if c then pure () else abort msg

def forEach (f : β → Script A Unit) : List β → Script A Unit
  | [] => pure ()
  | x :: xs => do f x; forEach f xs

/-- The values of `f` along a list. -/
def collect (f : β → Script A γ) : List β → Script A (List γ)
  | [] => pure []
  | x :: xs => do
    let y ← f x
    let ys ← collect f xs
    pure (y :: ys)

def Returns (p : Script A α) (h : List A) : Prop := ∃ x, (p h).1 = .ok x

-- ------------------------------
-- Running
-- ------------------------------

@[simp] theorem pure_run (x : α) (h : List A) : (pure x : Script A α) h = (.ok x, []) := rfl

@[simp] theorem emit_run (a : A) (h : List A) : emit a h = (.ok (), [a]) := rfl

@[simp] theorem abort_run (msg : String) (h : List A) :
    (abort msg : Script A α) h = (.error msg, []) := rfl

@[simp] theorem history_run (h : List A) : history h = (.ok h, []) := rfl

@[simp] theorem lift_run (x : Except String α) (h : List A) : lift x h = (x, []) := rfl

theorem require_run (c : Prop) [Decidable c] (msg : String) (h : List A) :
    (require c msg : Script A Unit) h = (if c then .ok () else .error msg, []) := by
  unfold require
  split <;> rfl

@[simp] theorem require_true {c : Prop} [Decidable c] (hc : c) (msg : String) :
    (require c msg : Script A Unit) = pure () := by
  rw [require, if_pos hc]

@[simp] theorem require_false {c : Prop} [Decidable c] (hc : ¬ c) (msg : String) :
    (require c msg : Script A Unit) = abort msg := by
  rw [require, if_neg hc]

theorem bind_run (p : Script A α) (q : α → Script A β) (h : List A) :
    (p >>= q) h = match p h with
      | (.error e, a) => (.error e, a)
      | (.ok x, a) => ((q x (h ++ a)).1, a ++ (q x (h ++ a)).2) := rfl

@[simp] theorem pure_bind_run (x : α) (q : α → Script A β) : (pure x >>= q) = q x := by
  funext h
  simp [bind_run]

theorem bind_assoc_run (p : Script A α) (q : α → Script A β) (r : β → Script A γ) :
    ((p >>= q) >>= r) = p >>= fun x => q x >>= r := by
  funext h
  simp only [bind_run]
  rcases p h with ⟨_ | x, a⟩
  · rfl
  · dsimp only
    rcases hq : q x (h ++ a) with ⟨_ | y, b⟩
    · rfl
    · simp only [List.append_assoc]

@[simp] theorem abort_bind (msg : String) (q : α → Script A β) :
    (abort msg >>= q) = abort msg := rfl

theorem bind_ok {p : Script A α} {q : α → Script A β} (hp : p h = (.ok x, a))
    (hq : q x (h ++ a) = (r, b)) : (p >>= q) h = (r, a ++ b) := by
  simp [bind_run, hp, hq]

theorem bind_error {p : Script A α} {q : α → Script A β} (hp : p h = (.error e, a)) :
    (p >>= q) h = (.error e, a) := by
  simp [bind_run, hp]

theorem bind_eq_ok {p : Script A α} {q : α → Script A β} :
    (p >>= q) h = (.ok y, c) ↔
      ∃ x a b, p h = (.ok x, a) ∧ q x (h ++ a) = (.ok y, b) ∧ c = a ++ b := by
  constructor
  · intro hpq
    rw [bind_run] at hpq
    split at hpq
    · cases hpq
    · rename_i x a hp
      obtain ⟨hy, hc⟩ := Prod.mk.inj hpq
      exact ⟨x, a, _, hp, Prod.ext hy rfl, hc.symm⟩
  · rintro ⟨x, a, b, hp, hq, rfl⟩
    exact bind_ok hp hq

theorem bind_acts_left {p : Script A α} {q : α → Script A β} (hp : p h = (r, a)) :
    a ⊆ ((p >>= q) h).2 := by
  rw [bind_run, hp]
  cases r with
  | error e => exact List.Subset.refl a
  | ok x => exact List.subset_append_left a _

theorem acts_subset_bind (p : Script A α) (q : α → Script A β) (h : List A) :
    (p h).2 ⊆ ((p >>= q) h).2 := bind_acts_left rfl

theorem bind_acts_right {p : Script A α} {q : α → Script A β} (hp : p h = (.ok x, a)) :
    (q x (h ++ a)).2 ⊆ ((p >>= q) h).2 := by
  rw [bind_run, hp]
  exact List.subset_append_right a _

@[simp] theorem lift_ok_bind (x : α) (q : α → Script A β) : (lift (.ok x) >>= q) = q x := by
  funext h
  simp [bind_run]

@[simp] theorem lift_error_bind (e : String) (q : α → Script A β) :
    ((lift (.error e) : Script A α) >>= q) = abort e := rfl

@[simp] theorem history_bind_run (q : List A → Script A β) (h : List A) :
    (history >>= q) h = q h h := by
  simp [bind_run]

@[simp] theorem emit_bind_run (a : A) (q : Unit → Script A β) (h : List A) :
    (emit a >>= q) h = ((q () (h ++ [a])).1, a :: (q () (h ++ [a])).2) := by
  simp [bind_run]

-- ------------------------------
-- Loops
-- ------------------------------

theorem forEach_cons (f : β → Script A Unit) (x : β) (xs : List β) :
    forEach f (x :: xs) = (do f x; forEach f xs) := rfl

theorem forEach_map {f : γ → Script A Unit} {g : β → γ} {f' : β → Script A Unit} {xs : List β}
    (hf : ∀ x ∈ xs, f' x = f (g x)) : forEach f' xs = forEach f (xs.map g) := by
  induction xs with
  | nil => rfl
  | cons x xs ih =>
    rw [forEach_cons, List.map_cons, forEach_cons, hf x List.mem_cons_self,
      ih fun y hy => hf y (List.mem_cons_of_mem x hy)]

/-- A loop whose body always returns and whose emissions do not depend on the
history. -/
theorem forEach_ok {f : β → Script A Unit} {g : β → List A} {xs : List β}
    (hf : ∀ x ∈ xs, ∀ h, f x h = (.ok (), g x)) (h : List A) :
    forEach f xs h = (.ok (), xs.flatMap g) := by
  induction xs generalizing h with
  | nil => rfl
  | cons x xs ih =>
    rw [forEach_cons, List.flatMap_cons]
    exact bind_ok (hf x List.mem_cons_self h)
      (ih (fun y hy => hf y (List.mem_cons_of_mem x hy)) _)

theorem forEach_not_returns {f : β → Script A Unit} {xs : List β} (hx : x ∈ xs)
    (hf : ∀ h, ¬ (f x).Returns h) (h : List A) : ¬ (forEach f xs).Returns h := by
  induction xs generalizing h with
  | nil => cases hx
  | cons y ys ih =>
    rintro ⟨u, hu⟩
    obtain ⟨v, a, b, hy, hys, -⟩ := bind_eq_ok.mp (Prod.ext hu rfl : forEach f (y :: ys) h = (.ok u, _))
    rcases List.mem_cons.mp hx with rfl | hx
    · exact hf h ⟨v, congrArg Prod.fst hy⟩
    · exact ih hx _ ⟨u, congrArg Prod.fst hys⟩

theorem forEach_split {f : β → Script A Unit} {xs ys : List β} {x : β} {h acts : List A}
    (hrun : forEach f (xs ++ x :: ys) h = (.ok (), acts)) :
    ∃ a b c, forEach f xs h = (.ok (), a) ∧ f x (h ++ a) = (.ok (), b) ∧
      forEach f ys (h ++ a ++ b) = (.ok (), c) ∧ acts = a ++ b ++ c := by
  induction xs generalizing h acts with
  | nil =>
    obtain ⟨u, b, c, hx, hys, rfl⟩ := bind_eq_ok.mp hrun
    exact ⟨[], b, c, rfl, by simpa using hx, by simpa using hys, rfl⟩
  | cons y xs ih =>
    obtain ⟨u, a, r, hy, hrest, rfl⟩ := bind_eq_ok.mp hrun
    obtain ⟨a', b, c, hxs, hx, hys, rfl⟩ := ih hrest
    refine ⟨a ++ a', b, c, bind_ok hy hxs, ?_, ?_, by simp⟩
    · simpa using hx
    · simpa using hys

theorem forEach_eq_ok {f : β → Script A Unit} {g : β → List A} {P : β → Prop} {xs : List β}
    (hf : ∀ x ∈ xs, ∀ h a, f x h = (.ok (), a) → a = g x ∧ P x) {h acts : List A}
    (hrun : forEach f xs h = (.ok (), acts)) : acts = xs.flatMap g ∧ ∀ x ∈ xs, P x := by
  induction xs generalizing h acts with
  | nil =>
    cases hrun
    exact ⟨rfl, fun _ hx => absurd hx List.not_mem_nil⟩
  | cons x xs ih =>
    obtain ⟨_, a, b, hx, hxs, rfl⟩ := bind_eq_ok.mp hrun
    obtain ⟨rfl, hPx⟩ := hf x List.mem_cons_self h a hx
    obtain ⟨rfl, hPxs⟩ := ih (fun y hy => hf y (List.mem_cons_of_mem x hy)) hxs
    exact ⟨rfl, List.forall_mem_cons.mpr ⟨hPx, hPxs⟩⟩

theorem lift_bind_eq_ok {x : Except String α} {q : α → Script A β} :
    (lift x >>= q) h = (.ok y, c) ↔ ∃ v, x = .ok v ∧ q v h = (.ok y, c) := by
  cases x with
  | error e => simp [bind_run]
  | ok v => simp

theorem require_bind_eq_ok {c : Prop} [Decidable c] {msg : String} {q : Unit → Script A β} :
    (require c msg >>= q) h = (.ok y, acts) ↔ c ∧ q () h = (.ok y, acts) := by
  by_cases hc : c
  · simp [hc]
  · simp [hc]

theorem not_returns_of_error {p : Script A α} (hp : p h = (.error e, a)) : ¬ p.Returns h := by
  rintro ⟨x, hx⟩
  rw [hp] at hx
  cases hx

theorem returns_of_ok {p : Script A α} (hp : p h = (.ok x, a)) : p.Returns h :=
  ⟨x, congrArg Prod.fst hp⟩

theorem Returns.run {p : Script A α} {h : List A} (hp : p.Returns h) :
    ∃ x a, p h = (.ok x, a) := by
  obtain ⟨x, hx⟩ := hp
  exact ⟨x, _, Prod.ext hx rfl⟩

theorem returns_bind {p : Script A α} {q : α → Script A β} {h : List A} (hp : p.Returns h)
    (hq : ∀ x a, p h = (.ok x, a) → (q x).Returns (h ++ a)) : (p >>= q).Returns h := by
  obtain ⟨x, hx⟩ := hp
  have hrun : p h = (.ok x, (p h).2) := Prod.ext hx rfl
  obtain ⟨y, hy⟩ := hq x _ hrun
  exact ⟨y, by rw [bind_run, hrun]; exact hy⟩

theorem returns_forEach {f : β → Script A Unit} {xs : List β} (hf : ∀ x ∈ xs, ∀ h, (f x).Returns h)
    (h : List A) : (forEach f xs).Returns h := by
  induction xs generalizing h with
  | nil => exact ⟨(), rfl⟩
  | cons x xs ih =>
    exact returns_bind (hf x List.mem_cons_self h) fun _ a _ =>
      ih (fun y hy => hf y (List.mem_cons_of_mem x hy)) (h ++ a)

/-- `P` holds of each element with the history at which the loop comes to it. -/
def Along (f : β → Script A Unit) (P : β → List A → Prop) : List β → List A → Prop
  | [], _ => True
  | x :: xs, h => P x h ∧ Along f P xs (h ++ (f x h).2)

theorem returns_along {f : β → Script A Unit} {P : β → List A → Prop} {xs : List β} {h : List A}
    (hP : ∀ x ∈ xs, ∀ h, P x h → (f x).Returns h) (hall : Along f P xs h) :
    (forEach f xs).Returns h := by
  induction xs generalizing h with
  | nil => exact ⟨(), rfl⟩
  | cons x xs ih =>
    refine returns_bind (hP x List.mem_cons_self h hall.1) fun _ a hx => ?_
    refine ih (fun y hy => hP y (List.mem_cons_of_mem x hy)) ?_
    have hrest := hall.2
    rwa [hx] at hrest

theorem returns_forEach_within {f : β → Script A Unit} {xs : List β} {h acts : List A}
    (hsub : (forEach f xs h).2 ⊆ acts)
    (hf : ∀ x ∈ xs, ∀ h, (f x h).2 ⊆ acts → (f x).Returns h) : (forEach f xs).Returns h := by
  induction xs generalizing h with
  | nil => exact ⟨(), rfl⟩
  | cons x xs ih =>
    have hfirst : (f x h).2 ⊆ (forEach f (x :: xs) h).2 := acts_subset_bind _ _ h
    refine returns_bind (hf x List.mem_cons_self h (List.Subset.trans hfirst hsub)) fun _ a hx => ?_
    have hrest : (forEach f xs (h ++ a)).2 ⊆ (forEach f (x :: xs) h).2 :=
      bind_acts_right (q := fun _ => forEach f xs) hx
    exact ih (List.Subset.trans hrest hsub) fun y hy => hf y (List.mem_cons_of_mem x hy)

theorem returns_collect {f : β → Script A γ} {xs : List β} (hf : ∀ x ∈ xs, ∀ h, (f x).Returns h)
    (h : List A) : (collect f xs).Returns h := by
  induction xs generalizing h with
  | nil => exact ⟨[], rfl⟩
  | cons x xs ih =>
    exact returns_bind (hf x List.mem_cons_self h) fun y a _ =>
      returns_bind (ih (fun z hz => hf z (List.mem_cons_of_mem x hz)) (h ++ a)) fun ys _ _ =>
        ⟨y :: ys, rfl⟩

theorem ite_throw_eq_ok {c : Prop} [Decidable c] {msg : String} {k : Unit → Except String α} :
    (if c then (throw msg : Except String Unit) >>= k else k ()) = .ok x ↔ ¬ c ∧ k () = .ok x := by
  by_cases hc : c
  · rw [if_pos hc]
    refine ⟨fun h => ?_, fun h => absurd hc h.1⟩
    cases h
  · rw [if_neg hc, and_iff_right hc]

theorem except_bind_eq_ok {x : Except String α} {f : α → Except String β} {y : β} :
    (x >>= f) = .ok y ↔ ∃ a, x = .ok a ∧ f a = .ok y := by
  cases x with
  | error e => simp [bind, Except.bind]
  | ok a => simp [bind, Except.bind]

theorem mapM_cons_eq_ok {f : α → Except String β} {x : α} {xs : List α} {ys : List β} :
    (x :: xs).mapM f = .ok ys ↔ ∃ y zs, f x = .ok y ∧ xs.mapM f = .ok zs ∧ ys = y :: zs := by
  simp only [List.mapM_cons, except_bind_eq_ok, pure, Except.pure, Except.ok.injEq]
  constructor
  · rintro ⟨y, hy, zs, hzs, rfl⟩
    exact ⟨y, zs, hy, hzs, rfl⟩
  · rintro ⟨y, zs, hy, hzs, rfl⟩
    exact ⟨y, hy, zs, hzs, rfl⟩

theorem mapM_eq_ok_mem {f : α → Except String β} {xs : List α} {ys : List β}
    (h : xs.mapM f = .ok ys) : ∀ x ∈ xs, ∃ y, f x = .ok y := by
  induction xs generalizing ys with
  | nil => exact fun x hx => absurd hx List.not_mem_nil
  | cons x xs ih =>
    obtain ⟨y, zs, hy, hzs, -⟩ := mapM_cons_eq_ok.mp h
    exact List.forall_mem_cons.mpr ⟨⟨y, hy⟩, ih hzs⟩

theorem mapM_ok {f : α → Except String β} {g : α → β} {xs : List α} (h : ∀ x ∈ xs, f x = .ok (g x)) :
    xs.mapM f = .ok (xs.map g) := by
  induction xs with
  | nil => rfl
  | cons x xs ih =>
    exact mapM_cons_eq_ok.mpr ⟨g x, xs.map g, h x List.mem_cons_self,
      ih fun y hy => h y (List.mem_cons_of_mem x hy), rfl⟩

theorem mapM_eq_ok_iff {f : α → Except String β} {g : α → β} {P : α → Prop} {xs : List α}
    {ys : List β} (hf : ∀ x y, f x = .ok y ↔ P x ∧ y = g x) :
    xs.mapM f = .ok ys ↔ (∀ x ∈ xs, P x) ∧ ys = xs.map g := by
  induction xs generalizing ys with
  | nil =>
    rw [List.mapM_nil]
    simp [pure, Except.pure, eq_comm]
  | cons x xs ih =>
    simp only [mapM_cons_eq_ok, hf, ih, List.forall_mem_cons, List.map_cons]
    constructor
    · rintro ⟨_, _, ⟨hx, rfl⟩, ⟨hxs, rfl⟩, rfl⟩
      exact ⟨⟨hx, hxs⟩, rfl⟩
    · rintro ⟨⟨hx, hxs⟩, rfl⟩
      exact ⟨_, _, ⟨hx, rfl⟩, ⟨hxs, rfl⟩, rfl⟩

theorem foldlM_range_succ (f : α → Nat → Except String α) (n : Nat) (a : α) :
    (List.range (n + 1)).foldlM f a = (List.range n).foldlM f a >>= fun b => f b n := by
  rw [List.range_succ, List.foldlM_append]
  simp only [List.foldlM_cons, List.foldlM_nil, bind_pure]

theorem foldlM_range_ok {f : α → Nat → Except String α} {I : Nat → α → Prop} {n : Nat} {a : α}
    (hinit : I 0 a) (hstep : ∀ i < n, ∀ b, I i b → ∃ c, f b i = .ok c ∧ I (i + 1) c) :
    ∃ b, (List.range n).foldlM f a = .ok b ∧ I n b := by
  induction n with
  | zero => exact ⟨a, rfl, hinit⟩
  | succ n ih =>
    obtain ⟨b, hb, hinv⟩ := ih fun i hi => hstep i (by omega)
    obtain ⟨c, hc, hnext⟩ := hstep n (by omega) b hinv
    rw [foldlM_range_succ]
    exact ⟨c, except_bind_eq_ok.mpr ⟨b, hb, hc⟩, hnext⟩

-- ------------------------------
-- What is emitted
-- ------------------------------

/-- Everything the script emits satisfies `P`, whatever came before. -/
def Emits (P : A → Prop) (p : Script A α) : Prop := ∀ h, ∀ a ∈ (p h).2, P a

section
variable {P : A → Prop}

theorem Emits.mem {p : Script A α} (hp : Emits P p) (hrun : p h = (r, acts)) : ∀ a ∈ acts, P a :=
  fun a ha => hp h a (by rwa [hrun])

theorem emits_pure (x : α) : Emits P (pure x : Script A α) := fun _ _ ha =>
  absurd ha List.not_mem_nil

theorem emits_lift (x : Except String α) : Emits P (lift x : Script A α) := fun _ _ ha =>
  absurd ha List.not_mem_nil

theorem emits_abort (msg : String) : Emits P (abort msg : Script A α) := fun _ _ ha =>
  absurd ha List.not_mem_nil

theorem emits_history : Emits P (history : Script A (List A)) := fun _ _ ha =>
  absurd ha List.not_mem_nil

theorem emits_emit {a : A} (ha : P a) : Emits P (emit a) := fun _ _ hb =>
  List.mem_singleton.mp hb ▸ ha

theorem emits_require (c : Prop) [Decidable c] (msg : String) :
    Emits P (require c msg : Script A Unit) := fun h a ha => by
  rw [require_run] at ha
  exact absurd ha List.not_mem_nil

theorem emits_bind {p : Script A α} {q : α → Script A β} (hp : Emits P p)
    (hq : ∀ x, Emits P (q x)) : Emits P (p >>= q) := by
  intro h a ha
  rw [bind_run] at ha
  split at ha
  · rename_i e acts hrun
    exact hp h a (by rwa [hrun])
  · rename_i x acts hrun
    rcases List.mem_append.mp ha with ha | ha
    · exact hp h a (by rwa [hrun])
    · exact hq x _ a ha

theorem emits_ite {c : Prop} [Decidable c] {p q : Script A α} (hp : c → Emits P p)
    (hq : ¬ c → Emits P q) : Emits P (if c then p else q) := by
  split
  · exact hp ‹_›
  · exact hq ‹_›

theorem emits_forEach {f : β → Script A Unit} {xs : List β} (hf : ∀ x ∈ xs, Emits P (f x)) :
    Emits P (forEach f xs) := by
  induction xs with
  | nil => exact emits_pure ()
  | cons x xs ih =>
    exact emits_bind (hf x List.mem_cons_self) fun _ =>
      ih fun y hy => hf y (List.mem_cons_of_mem x hy)

theorem emits_collect {f : β → Script A γ} {xs : List β} (hf : ∀ x ∈ xs, Emits P (f x)) :
    Emits P (collect f xs) := by
  induction xs with
  | nil => exact emits_pure []
  | cons x xs ih =>
    exact emits_bind (hf x List.mem_cons_self) fun _ =>
      emits_bind (ih fun y hy => hf y (List.mem_cons_of_mem x hy)) fun _ => emits_pure _

end

-- ------------------------------
-- Pre- and postconditions
-- ------------------------------

/-- Every action is allowed in the state in which it is emitted. -/
def Allowed {S : Type} (step : S → A → S) (allow : S → A → Prop) : S → List A → Prop
  | _, [] => True
  | s, a :: acts => allow s a ∧ Allowed step allow (step s a) acts

theorem allowed_append {S : Type} {step : S → A → S} {allow : S → A → Prop} {s : S}
    {acts acts' : List A} :
    Allowed step allow s (acts ++ acts') ↔
      Allowed step allow s acts ∧ Allowed step allow (acts.foldl step s) acts' := by
  induction acts generalizing s with
  | nil => simp [Allowed]
  | cons a acts ih => simp [Allowed, ih, and_assoc]

/-- From a state in `I` the script emits only allowed actions, and leads to `J`
when it returns. -/
def Triple {S : Type} (step : S → A → S) (allow : S → A → Prop) (I : S → Prop) (p : Script A α)
    (J : α → S → Prop) : Prop :=
  ∀ h s, I s → Allowed step allow s (p h).2 ∧
    ∀ x, (p h).1 = .ok x → J x ((p h).2.foldl step s)

section
variable {S : Type} {step : S → A → S} {allow : S → A → Prop} {I I' : S → Prop}

theorem triple_pure {J : α → S → Prop} (x : α) (h : ∀ s, I s → J x s) :
    Triple step allow I (pure x : Script A α) J := by
  intro _ s hs
  refine ⟨trivial, fun y hy => ?_⟩
  cases hy
  exact h s hs

theorem triple_abort {J : α → S → Prop} (msg : String) :
    Triple step allow I (abort msg : Script A α) J := fun _ _ _ => ⟨trivial, fun _ hy => by cases hy⟩

theorem triple_lift (x : Except String α) :
    Triple step allow I (lift x : Script A α) fun y s => x = .ok y ∧ I s := fun _ _ hs =>
  ⟨trivial, fun _ hy => ⟨hy, hs⟩⟩

theorem triple_require (c : Prop) [Decidable c] (msg : String) :
    Triple step allow I (require c msg : Script A Unit) fun _ s => c ∧ I s := by
  intro _ s hs
  rw [require_run]
  refine ⟨trivial, fun y hy => ?_⟩
  split at hy
  · exact ⟨‹_›, hs⟩
  · cases hy

theorem triple_emit {J : Unit → S → Prop} {a : A} (ha : ∀ s, I s → allow s a ∧ J () (step s a)) :
    Triple step allow I (emit a) J := fun _ s hs =>
  ⟨⟨(ha s hs).1, trivial⟩, fun _ _ => (ha s hs).2⟩

theorem triple_bind {p : Script A α} {q : α → Script A β} {J : α → S → Prop} {K : β → S → Prop}
    (hp : Triple step allow I p J) (hq : ∀ x, Triple step allow (J x) (q x) K) :
    Triple step allow I (p >>= q) K := by
  intro h s hs
  obtain ⟨hallow, hJ⟩ := hp h s hs
  rw [bind_run]
  split
  · rename_i e acts hrun
    rw [hrun] at hallow
    exact ⟨hallow, fun y hy => by cases hy⟩
  · rename_i x acts hrun
    rw [hrun] at hallow hJ
    obtain ⟨hallow', hK⟩ := hq x (h ++ acts) _ (hJ x rfl)
    refine ⟨allowed_append.mpr ⟨hallow, hallow'⟩, fun y hy => ?_⟩
    rw [List.foldl_append]
    exact hK y hy

theorem Triple.mono {p : Script A α} {J J' : α → S → Prop} (hp : Triple step allow I p J)
    (hI : ∀ s, I' s → I s) (hJ : ∀ x s, J x s → J' x s) : Triple step allow I' p J' := by
  intro h s hs
  obtain ⟨hallow, hpost⟩ := hp h s (hI s hs)
  exact ⟨hallow, fun x hx => hJ x _ (hpost x hx)⟩

theorem triple_of_fact {c : Prop} {p : Script A α} {J : α → S → Prop}
    (hp : c → Triple step allow I p J) : Triple step allow (fun s => c ∧ I s) p J :=
  fun h s hs => hp hs.1 h s hs.2

theorem triple_forEach {f : β → Script A Unit} {xs : List β}
    (hf : ∀ x ∈ xs, Triple step allow I (f x) fun _ => I) :
    Triple step allow I (forEach f xs) fun _ => I := by
  induction xs with
  | nil => exact triple_pure () fun _ hs => hs
  | cons x xs ih =>
    exact triple_bind (hf x List.mem_cons_self) fun _ =>
      ih fun y hy => hf y (List.mem_cons_of_mem x hy)

end

end Script

end Lib
