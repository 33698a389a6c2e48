import ArmciMpi.Lib.Script
import ArmciMpi.Runtime.Init
import Mathlib.Data.List.Infix
import Mathlib.Data.List.TakeWhile

/-!
# The version of the MPI library

`ARMCII_Parse_library_version` tries all versions with a major and a minor number in
range, from the highest down, and looks for the text of each. It leaves the loop over
the minor numbers with the first that is found but goes on with the major numbers, so
that the lowest major number found anywhere wins, that of a patch included.
`parse_version_iff` says when a text is parsed as the version it starts with.

A text is the list of its characters before the null. Where `sprintf` would write
beyond its buffer and where `atoi` is undefined, the run ends with an error.
-/

namespace ArmciMpi

open Lib Script

/-- `ARMCII_MPI_Impl_e`. -/
inductive MpiImpl
  | mpich
  | openMpi
  | mvapich2
  | intelMpi
  | crayMpi
  | unknownMpi
  deriving DecidableEq

/-- What `ARMCII_Parse_library_version` stores. -/
structure LibraryVersion where
  impl : MpiImpl
  major : Int
  minor : Int
  patch : List Char
  deriving DecidableEq

/-- `strstr`: the text from the first occurrence of the pattern on. -/
def strstr (text pat : List Char) : Option (List Char) := text.tails.find? (pat.isPrefixOf ·)

def atoi (text : List Char) : Except String Int := checkInt (leadingInt (String.ofList text))

/-- What `"%d.%d"` prints. -/
def versionText (major minor : Nat) : List Char :=
  Nat.toDigits 10 major ++ '.' :: Nat.toDigits 10 minor

/-- `sprintf` into a buffer of the size, which holds the null as well. -/
def versionString (size major minor : Nat) : Except String (List Char) :=
  if (versionText major minor).length < size then .ok (versionText major minor)
  else .error "buffer overflow"

def countdown (hi lo : Nat) : List Nat := (List.range' lo (hi + 1 - lo)).reverse

structure VersionSearch where
  /-- What the text names the library. -/
  name : List Char
  impl : MpiImpl
  majors : List Nat
  minors : List Nat
  /-- The size of `version_string`. -/
  size : Nat
  /-- Where the minor number starts. -/
  minorAt : Nat
  /-- The patch, from where the version starts. -/
  patch : List Char → List Char

namespace VersionSearch

def findMinor (x : VersionSearch) (text : List Char) (major : Nat) :
    List Nat → Except String (Option (List Char))
  | [] => return none
  | minor :: minors => do
    match strstr text (← versionString x.size major minor) with
    | some p => return some p
    | none => findMinor x text major minors

def step (x : VersionSearch) (text : List Char) (v : LibraryVersion) (major : Nat) :
    Except String LibraryVersion := do
  match ← x.findMinor text major x.minors with
  | none => return v
  | some p =>
    -- only the inner loop is left: a lower major number may still be found
    return { v with major := ← atoi p, minor := ← atoi (p.drop x.minorAt), patch := x.patch p }

def run (x : VersionSearch) (text : List Char) : Except String LibraryVersion :=
  x.majors.foldlM (x.step text) ⟨x.impl, 0, 0, []⟩

def block (x : VersionSearch) (text : List Char) (v : LibraryVersion) :
    Except String LibraryVersion :=
  if (strstr text x.name).isSome then x.run text else pure v

def mpich : VersionSearch where
  name := "MPICH".toList
  impl := .mpich
  majors := countdown 9 3
  minors := countdown 9 0
  size := 4
  minorAt := 2
  patch := fun p => (p.drop 3).take 4

def openMpi : VersionSearch where
  name := "Open MPI".toList
  impl := .openMpi
  majors := countdown 9 2
  minors := countdown 9 0
  size := 4
  minorAt := 2
  patch := fun p => ((p.drop 3).take 4).takeWhile (· ≠ ',')

/-- The buffer has no room for the null after the first version. -/
def intelMpi : VersionSearch where
  name := "Intel(R) MPI Library".toList
  impl := .intelMpi
  majors := countdown 2030 2000
  minors := countdown 30 0
  size := 7
  minorAt := 5
  patch := fun _ => []

end VersionSearch

def parseLibraryVersion (text : List Char) : Except String LibraryVersion := do
  let v ← VersionSearch.mpich.block text ⟨.unknownMpi, -1, -1, []⟩
  let v ← VersionSearch.openMpi.block text v
  VersionSearch.intelMpi.block text v

/-- What `PARMCI_Init_thread_comm` keeps of the text of `MPI_Get_library_version`. -/
def libraryVersionShort (text : List Char) : List Char :=
  (text.take 31).takeWhile fun c => ¬ (c = '\r' ∨ c = '\n')

/-- The version that `PARMCI_Init_thread_comm` works with. -/
def initLibraryVersion (text : List Char) : Except String LibraryVersion :=
  parseLibraryVersion (libraryVersionShort text)

theorem initLibraryVersion_eq {text : List Char} (hlen : text.length ≤ 31)
    (hline : ∀ c ∈ text, c ≠ '\r' ∧ c ≠ '\n') :
    initLibraryVersion text = parseLibraryVersion text := by
  rw [initLibraryVersion, libraryVersionShort, List.take_of_length_le hlen,
    List.takeWhile_eq_self_iff.mpr fun c hc => ?_]
  exact decide_eq_true (not_or.mpr (hline c hc))

-- ------------------------------
-- Searching in texts
-- ------------------------------

section
variable {text pat p : List Char}

theorem strstr_eq_none_iff : strstr text pat = none ↔ ¬ pat <:+: text := by
  rw [strstr, List.find?_eq_none, List.infix_iff_prefix_suffix]
  simp only [List.mem_tails, List.isPrefixOf_iff_prefix]
  exact ⟨fun h ⟨t, hpat, ht⟩ => h t ht hpat, fun h t ht hpat => h ⟨t, hpat, ht⟩⟩

theorem strstr_isSome_iff : (strstr text pat).isSome ↔ pat <:+: text := by
  rw [← not_iff_not, ← strstr_eq_none_iff, Bool.not_eq_true, Option.isSome_eq_false_iff,
    Option.isNone_iff_eq_none]

theorem isPrefix_of_strstr (h : strstr text pat = some p) : pat <+: p :=
  List.isPrefixOf_iff_prefix.mp (List.find?_some h)

theorem strstr_of_isPrefix (h : pat <+: text) : strstr text pat = some text := by
  have hpat : pat.isPrefixOf text = true := List.isPrefixOf_iff_prefix.mpr h
  cases text with
  | nil => exact List.find?_cons_of_pos hpat
  | cons c cs => rw [strstr, List.tails_cons]; exact List.find?_cons_of_pos hpat

theorem strstr_skip {pre : List Char} {d : Char} (h : d ∉ pre) :
    strstr (pre ++ text) (d :: pat) = strstr text (d :: pat) := by
  induction pre with
  | nil => rfl
  | cons c cs ih =>
    obtain ⟨hne, hcs⟩ := List.ne_and_not_mem_of_not_mem_cons h
    rw [← ih hcs, strstr, List.cons_append, List.tails_cons, List.find?_cons_of_neg]
    · rfl
    · rw [List.isPrefixOf_iff_prefix, List.cons_prefix_cons]
      exact fun hpre => hne hpre.1

end

-- ------------------------------
-- Numbers in texts
-- ------------------------------

theorem versionText_digits {j k : Nat} (hj : j ≤ 9) (hk : k ≤ 9) :
    versionText j k = [j.digitChar, '.', k.digitChar] := by
  rw [versionText, Nat.toDigits_of_lt_base (by omega), Nat.toDigits_of_lt_base (by omega)]
  rfl

def digitsFrom (n : Int) (cs : List Char) : Int :=
  (cs.takeWhile Char.isDigit).foldl (fun (n : Int) c => n * 10 + (c.toNat - '0'.toNat)) n

theorem leadingInt_digit {j : Nat} (hj : j ≤ 9) (cs : List Char) :
    leadingInt (String.ofList (j.digitChar :: cs)) = digitsFrom j cs := by
  have hdigit : ∀ i : Nat, i ≤ 9 → isspace i.digitChar = false ∧ i.digitChar.isDigit = true ∧
      i.digitChar ≠ '-' ∧ i.digitChar ≠ '+' ∧ (i.digitChar.toNat : Int) - '0'.toNat = i := by decide
  obtain ⟨hspace, hisDigit, hminus, hplus, hval⟩ := hdigit j hj
  have hread : leadingInt (String.ofList (j.digitChar :: cs)) = leadingDigits (j.digitChar :: cs) := by
    unfold leadingInt
    rw [String.toList_ofList, List.dropWhile_cons_of_neg (by rw [hspace]; decide)]
    split
    · exact absurd (List.cons.inj ‹_›).1 hminus
    · exact absurd (List.cons.inj ‹_›).1 hplus
    · rfl
  rw [hread, leadingDigits, List.takeWhile_cons_of_pos hisDigit, List.foldl_cons, hval,
    Int.zero_mul, Int.zero_add]
  rfl

theorem digitsFrom_of_not_digit {cs : List Char} (h : ∀ c ∈ cs.head?, c.isDigit = false) (n : Int) :
    digitsFrom n cs = n := by
  cases cs with
  | nil => rfl
  | cons c cs =>
    have hc : ¬ c.isDigit = true := by rw [h c rfl]; decide
    rw [digitsFrom, List.takeWhile_cons_of_neg hc]
    rfl

theorem le_digitsFrom (cs : List Char) {n : Int} (hn : 0 ≤ n) : n ≤ digitsFrom n cs := by
  induction cs generalizing n with
  | nil => exact le_rfl
  | cons c cs ih =>
    by_cases hc : c.isDigit = true
    · have hge := (Char.isDigit_iff_toNat.mp hc).1
      have hrest := ih (n := n * 10 + (c.toNat - '0'.toNat)) (by omega)
      rw [digitsFrom, List.takeWhile_cons_of_pos hc, List.foldl_cons]
      exact le_trans (by omega) hrest
    · rw [digitsFrom, List.takeWhile_cons_of_neg hc]
      exact le_rfl

def minorOf (p : List Char) : Int := leadingInt (String.ofList (p.drop 2))

section
variable {j k : Nat} {p : List Char}

theorem read_version (hj : j ≤ 9) (hk : k ≤ 9) (hp : versionText j k <+: p) :
    atoi p = .ok j ∧ (k : Int) ≤ minorOf p := by
  obtain ⟨cs, rfl⟩ := hp
  rw [versionText_digits hj hk]
  have hmajor : leadingInt (String.ofList (j.digitChar :: '.' :: k.digitChar :: cs)) = j := by
    rw [leadingInt_digit hj]
    exact digitsFrom_of_not_digit (fun c hc => by obtain rfl := Option.some.inj hc; decide) j
  refine ⟨checkInt_eq_ok.mpr ?_, ?_⟩
  · rw [List.cons_append, List.cons_append, List.cons_append, List.nil_append, hmajor]
    exact ⟨inInt_of_nonneg (by omega) (by unfold intMax; omega), rfl⟩
  · show (k : Int) ≤ leadingInt (String.ofList (k.digitChar :: cs))
    rw [leadingInt_digit hk]
    exact le_digitsFrom cs (Int.natCast_nonneg k)

theorem minorOf_version (hj : j ≤ 9) (hk : k ≤ 9) {rest : List Char}
    (hrest : ∀ c ∈ rest.head?, c.isDigit = false) : minorOf (versionText j k ++ rest) = k := by
  rw [versionText_digits hj hk]
  show leadingInt (String.ofList (k.digitChar :: rest)) = k
  rw [leadingInt_digit hk, digitsFrom_of_not_digit hrest]

end

-- ------------------------------
-- The loop over the minor numbers
-- ------------------------------

def firstMatch (text : List Char) (major : Nat) : Option (List Char) :=
  (countdown 9 0).findSome? fun minor => strstr text (versionText major minor)

section
variable {text p : List Char} {j : Nat}

theorem mem_desc_split {l above below : List Nat} {k : Nat} (hdesc : l.Pairwise (· > ·))
    (hsplit : l = above ++ k :: below) :
    (∀ j, j ∈ above ↔ j ∈ l ∧ k < j) ∧ ∀ j, j ∈ below ↔ j ∈ l ∧ j < k := by
  rw [hsplit, List.pairwise_append, List.pairwise_cons] at hdesc
  obtain ⟨-, ⟨hbelow, -⟩, hcross⟩ := hdesc
  have habove : ∀ j ∈ above, j > k := fun j hj => hcross j hj k List.mem_cons_self
  simp only [hsplit, List.mem_append, List.mem_cons]
  refine ⟨fun j => ⟨fun hj => ⟨.inl hj, habove j hj⟩, ?_⟩,
    fun j => ⟨fun hj => ⟨.inr (.inr hj), hbelow j hj⟩, ?_⟩⟩
  · rintro ⟨hj | rfl | hj, hlt⟩
    · exact hj
    · exact absurd hlt (lt_irrefl _)
    · exact absurd (hbelow j hj) (by omega)
  · rintro ⟨hj | rfl | hj, hlt⟩
    · exact absurd (habove j hj) (by omega)
    · exact absurd hlt (lt_irrefl _)
    · exact hj

theorem mem_countdown {hi lo k : Nat} : k ∈ countdown hi lo ↔ lo ≤ k ∧ k ≤ hi := by
  rw [countdown, List.mem_reverse, List.mem_range'_1]
  omega

theorem countdown_desc (hi lo : Nat) : (countdown hi lo).Pairwise (· > ·) :=
  List.pairwise_reverse.mpr List.pairwise_lt_range'

theorem firstMatch_eq_none_iff : firstMatch text j = none ↔ ∀ k ≤ 9, ¬ versionText j k <:+: text := by
  simp only [firstMatch, List.findSome?_eq_none_iff, mem_countdown, Nat.zero_le, true_and,
    strstr_eq_none_iff]

theorem firstMatch_eq_some (h : firstMatch text j = some p) :
    ∃ k ≤ 9, strstr text (versionText j k) = some p ∧
      ∀ k', k < k' → k' ≤ 9 → ¬ versionText j k' <:+: text := by
  obtain ⟨before, k, behind, hsplit, hk, hnone⟩ := List.findSome?_eq_some_iff.mp h
  have hbefore := (mem_desc_split (countdown_desc 9 0) hsplit).1
  refine ⟨k, (mem_countdown.mp (by rw [hsplit]; simp)).2, hk, fun k' hlt hle => ?_⟩
  have hmem := (hbefore k').mpr ⟨mem_countdown.mpr ⟨Nat.zero_le k', hle⟩, hlt⟩
  exact strstr_eq_none_iff.mp (hnone k' hmem)

end

namespace VersionSearch

structure Digits (x : VersionSearch) (lo : Nat) : Prop where
  majors : x.majors = countdown 9 lo
  minors : x.minors = countdown 9 0
  size : x.size = 4
  minorAt : x.minorAt = 2

theorem digits_mpich : mpich.Digits 3 := ⟨rfl, rfl, rfl, rfl⟩

theorem digits_openMpi : openMpi.Digits 2 := ⟨rfl, rfl, rfl, rfl⟩

section
variable {x : VersionSearch} {lo : Nat} {text p : List Char} {v w : LibraryVersion} {j : Nat}

theorem findMinor_eq {minors : List Nat}
    (h : ∀ k ∈ minors, (versionText j k).length < x.size) :
    x.findMinor text j minors = .ok (minors.findSome? fun k => strstr text (versionText j k)) := by
  induction minors with
  | nil => rfl
  | cons k minors ih =>
    have hk : versionString x.size j k = .ok (versionText j k) := if_pos (h k List.mem_cons_self)
    rw [findMinor, hk, List.findSome?_cons]
    show (match strstr text (versionText j k) with
      | some p => pure (some p)
      | none => x.findMinor text j minors) = _
    cases strstr text (versionText j k) with
    | some p => rfl
    | none => exact ih fun k' hk' => h k' (List.mem_cons_of_mem k hk')

theorem Digits.findMinor (hx : x.Digits lo) (hj : j ≤ 9) (text : List Char) :
    x.findMinor text j x.minors = .ok (firstMatch text j) := by
  rw [hx.minors]
  refine findMinor_eq fun k hk => ?_
  rw [versionText_digits hj (mem_countdown.mp hk).2, hx.size]
  exact Nat.lt_succ_self 3

theorem Digits.step_none (hx : x.Digits lo) (hj : j ≤ 9) (h : firstMatch text j = none) :
    x.step text v j = .ok v := by
  rw [step, hx.findMinor hj, h]
  rfl

theorem Digits.step_some (hx : x.Digits lo) (hj : j ≤ 9) (h : firstMatch text j = some p) :
    x.step text v j = .ok w ↔ InInt (minorOf p) ∧
      w = { v with major := j, minor := minorOf p, patch := x.patch p } := by
  obtain ⟨k, hk, hp, -⟩ := firstMatch_eq_some h
  have hmajor := (read_version hj hk (isPrefix_of_strstr hp)).1
  have hstep : x.step text v j = (do
      let minor ← atoi (p.drop 2)
      return { v with major := j, minor, patch := x.patch p }) := by
    rw [step, hx.findMinor hj, h]
    show (do
      let major ← atoi p
      let minor ← atoi (p.drop x.minorAt)
      return { v with major, minor, patch := x.patch p }) = _
    rw [hmajor, hx.minorAt]
    rfl
  rw [hstep, except_bind_eq_ok]
  constructor
  · rintro ⟨minor, hminor, hw⟩
    obtain ⟨hint, rfl⟩ := checkInt_eq_ok.mp hminor
    exact ⟨hint, (Except.ok.inj hw).symm⟩
  · rintro ⟨hint, rfl⟩
    exact ⟨_, checkInt_eq_ok.mpr ⟨hint, rfl⟩, rfl⟩

-- ------------------------------
-- The loop over the major numbers
-- ------------------------------

variable {majors : List Nat}

/-- The loop returns if every minor number it reads is an `int`. -/
theorem Digits.loop_returns_iff (hx : x.Digits lo) (hle : ∀ j ∈ majors, j ≤ 9) (text : List Char)
    (v : LibraryVersion) :
    (∃ w, majors.foldlM (x.step text) v = .ok w) ↔
      ∀ j ∈ majors, ∀ p, firstMatch text j = some p → InInt (minorOf p) := by
  induction majors generalizing v with
  | nil => exact iff_of_true ⟨v, rfl⟩ fun j hj => absurd hj List.not_mem_nil
  | cons j majors ih =>
    obtain ⟨hj, hle⟩ := List.forall_mem_cons.mp hle
    rw [List.foldlM_cons, List.forall_mem_cons]
    cases h : firstMatch text j with
    | none =>
      rw [hx.step_none hj h]
      exact (ih hle v).trans (and_iff_right fun p hp => nomatch hp).symm
    | some p =>
      simp only [except_bind_eq_ok, hx.step_some hj h, Option.some.injEq, forall_eq']
      constructor
      · rintro ⟨w, _, ⟨hint, rfl⟩, hw⟩
        exact ⟨hint, (ih hle _).mp ⟨w, hw⟩⟩
      · rintro ⟨hint, hrest⟩
        obtain ⟨w, hw⟩ := (ih hle _).mpr hrest
        exact ⟨w, _, ⟨hint, rfl⟩, hw⟩

theorem Digits.loop_major (hx : x.Digits lo) (hle : ∀ j ∈ majors, j ≤ 9)
    (hrun : majors.foldlM (x.step text) v = .ok w) :
    w = v ∧ (∀ j ∈ majors, firstMatch text j = none) ∨ ∃ j ∈ majors, w.major = (j : Nat) := by
  induction majors generalizing v with
  | nil => exact .inl ⟨(Except.ok.inj hrun).symm, fun j hj => absurd hj List.not_mem_nil⟩
  | cons j majors ih =>
    obtain ⟨hj, hle⟩ := List.forall_mem_cons.mp hle
    rw [List.foldlM_cons] at hrun
    obtain ⟨v', hstep, hrun⟩ := except_bind_eq_ok.mp hrun
    rcases ih hle hrun with ⟨rfl, hnone⟩ | ⟨j', hj', hmajor⟩
    · cases h : firstMatch text j with
      | none =>
        rw [hx.step_none hj h] at hstep
        exact .inl ⟨(Except.ok.inj hstep).symm, List.forall_mem_cons.mpr ⟨h, hnone⟩⟩
      | some p =>
        obtain ⟨-, rfl⟩ := (hx.step_some hj h).mp hstep
        exact .inr ⟨j, List.mem_cons_self, rfl⟩
    · exact .inr ⟨j', List.mem_cons_of_mem j hj', hmajor⟩

theorem Digits.loop_none (hx : x.Digits lo) (hle : ∀ j ∈ majors, j ≤ 9)
    (hnone : ∀ j ∈ majors, firstMatch text j = none) : majors.foldlM (x.step text) v = .ok v := by
  induction majors with
  | nil => rfl
  | cons j majors ih =>
    obtain ⟨hj, hle⟩ := List.forall_mem_cons.mp hle
    obtain ⟨h, hnone⟩ := List.forall_mem_cons.mp hnone
    rw [List.foldlM_cons, hx.step_none hj h]
    exact ih hle hnone

end

section
variable {x : VersionSearch} {lo : Nat} {pre rest text : List Char} {M m : Nat}

theorem firstMatch_version (hpre : ∀ c ∈ pre, c.isDigit = false)
    (hrest : ∀ c ∈ rest.head?, c.isDigit = false) (hM : M ≤ 9) (hm : m ≤ 9)
    (htext : text = pre ++ (versionText M m ++ rest)) :
    ∃ p, firstMatch text M = some p ∧
      (minorOf p = m ↔ ∀ k, m < k → k ≤ 9 → ¬ versionText M k <:+: text) := by
  have hoccurs : versionText M m <:+: text := ⟨pre, rest, by rw [htext, List.append_assoc]⟩
  obtain ⟨p, hp⟩ : ∃ p, firstMatch text M = some p := by
    rw [← Option.ne_none_iff_exists']
    exact fun hnone => firstMatch_eq_none_iff.mp hnone m hm hoccurs
  obtain ⟨k, hk, hat, hhigher⟩ := firstMatch_eq_some hp
  refine ⟨p, hp, ?_⟩
  have hle : m ≤ k := by
    by_contra hlt
    exact hhigher m (by omega) hm hoccurs
  rcases Nat.lt_or_eq_of_le hle with hlt | rfl
  · have hread := (read_version hM hk (isPrefix_of_strstr hat)).2
    refine iff_of_false (by omega) fun hnone => hnone k hlt hk ?_
    exact strstr_isSome_iff.mp (by rw [hat]; rfl)
  · refine iff_of_true ?_ hhigher
    have hfirst : strstr text (versionText M m) = some (versionText M m ++ rest) := by
      have hnot : M.digitChar ∉ pre := fun hmem => by
        have := hpre _ hmem
        rw [Nat.isDigit_digitChar, decide_eq_false_iff_not] at this
        omega
      rw [htext, versionText_digits hM hm, strstr_skip hnot]
      exact strstr_of_isPrefix (List.prefix_append _ _)
    rw [Option.some.inj (hat.symm.trans hfirst), minorOf_version hM hm hrest]

theorem Digits.run_returns_iff (hx : x.Digits lo) (text : List Char) :
    (∃ w, x.run text = .ok w) ↔
      ∀ j, lo ≤ j → j ≤ 9 → ∀ p, firstMatch text j = some p → InInt (minorOf p) := by
  have hle : ∀ j ∈ countdown 9 lo, j ≤ 9 := fun j hj => (mem_countdown.mp hj).2
  have hloop := hx.loop_returns_iff hle text ⟨x.impl, 0, 0, []⟩
  simp only [mem_countdown, and_imp] at hloop
  rwa [← hx.majors] at hloop

/-- The search gives the version at the start of the text if the text has no lower major number
and no higher minor number, and every minor number that is read is an `int`. -/
theorem Digits.run_iff (hx : x.Digits lo) (hpre : ∀ c ∈ pre, c.isDigit = false)
    (hrest : ∀ c ∈ rest.head?, c.isDigit = false) (hlo : lo ≤ M) (hM : M ≤ 9) (hm : m ≤ 9)
    (htext : text = pre ++ (versionText M m ++ rest)) :
    (∃ v, x.run text = .ok v ∧ v.major = M ∧ v.minor = m) ↔
      (∀ j k, lo ≤ j → j < M → k ≤ 9 → ¬ versionText j k <:+: text) ∧
      (∀ k, m < k → k ≤ 9 → ¬ versionText M k <:+: text) ∧
      ∀ j, M < j → j ≤ 9 → ∀ p, firstMatch text j = some p → InInt (minorOf p) := by
  obtain ⟨p, hp, hminor⟩ := firstMatch_version hpre hrest hM hm htext
  obtain ⟨above, below, hsplit⟩ := List.append_of_mem (mem_countdown.mpr ⟨hlo, hM⟩)
  obtain ⟨habove, hbelow⟩ := mem_desc_split (countdown_desc 9 lo) hsplit
  simp only [mem_countdown] at habove hbelow
  have hle₁ : ∀ j ∈ above, j ≤ 9 := fun j hj => ((habove j).mp hj).1.2
  have hle₂ : ∀ j ∈ below, j ≤ 9 := fun j hj => ((hbelow j).mp hj).1.2
  -- the turns before, that of the version and those behind
  rw [← hminor, run, hx.majors, hsplit, List.foldlM_append]
  constructor
  · rintro ⟨v, hrun, hmajor, hv⟩
    obtain ⟨v₁, hfirst, hrun⟩ := except_bind_eq_ok.mp hrun
    rw [List.foldlM_cons] at hrun
    obtain ⟨v₂, hstep, hrun⟩ := except_bind_eq_ok.mp hrun
    obtain ⟨-, rfl⟩ := (hx.step_some hM hp).mp hstep
    have hreads := (hx.loop_returns_iff hle₁ text _).mp ⟨v₁, hfirst⟩
    rcases hx.loop_major hle₂ hrun with ⟨rfl, hnone⟩ | ⟨j, hj, hj'⟩
    · refine ⟨fun j k hlo' hlt => ?_, hv, fun j hlt hle => ?_⟩
      · exact firstMatch_eq_none_iff.mp (hnone j ((hbelow j).mpr ⟨⟨hlo', by omega⟩, hlt⟩)) k
      · exact hreads j ((habove j).mpr ⟨⟨by omega, hle⟩, hlt⟩)
    · have hlt := ((hbelow j).mp hj).2
      omega
  · rintro ⟨hnone, hv, hreads⟩
    have hint : InInt (minorOf p) := inInt_of_nonneg (by omega) (by unfold intMax; omega)
    obtain ⟨v₁, hfirst⟩ := (hx.loop_returns_iff hle₁ text ⟨x.impl, 0, 0, []⟩).mpr fun j hj =>
      hreads j ((habove j).mp hj).2 (hle₁ j hj)
    refine ⟨{ v₁ with major := M, minor := minorOf p, patch := x.patch p }, ?_, rfl, hv⟩
    refine except_bind_eq_ok.mpr ⟨v₁, hfirst, ?_⟩
    rw [List.foldlM_cons, (hx.step_some hM hp).mpr ⟨hint, rfl⟩]
    refine hx.loop_none hle₂ fun j hj => firstMatch_eq_none_iff.mpr fun k hk => ?_
    have hj := (hbelow j).mp hj
    exact hnone j k hj.1.1 hj.2 hk

end

theorem run_intelMpi (text : List Char) : intelMpi.run text = .error "buffer overflow" := rfl

section
variable {x : VersionSearch} {text : List Char} {v : LibraryVersion}

theorem block_named (h : x.name <:+: text) : x.block text v = x.run text :=
  if_pos (strstr_isSome_iff.mpr h)

theorem block_not_named (h : ¬ x.name <:+: text) : x.block text v = .ok v :=
  if_neg (mt strstr_isSome_iff.mp h)

end

theorem mpich_returns {text : List Char} {w : LibraryVersion} (h : openMpi.run text = .ok w)
    (v : LibraryVersion) : ∃ v', mpich.block text v = .ok v' := by
  by_cases hname : mpich.name <:+: text
  · rw [block_named hname]
    refine (digits_mpich.run_returns_iff text).mpr fun j hj => ?_
    exact (digits_openMpi.run_returns_iff text).mp ⟨w, h⟩ j (by omega)
  · exact ⟨v, block_not_named hname⟩

end VersionSearch

open VersionSearch

/-- The search whose result is kept if the text names MPICH or Open MPI only. -/
def keptSearch (text : List Char) : VersionSearch :=
  if (strstr text openMpi.name).isSome then openMpi else mpich

def lowestMajor (text : List Char) : Nat := if (strstr text openMpi.name).isSome then 2 else 3

theorem digits_keptSearch (text : List Char) : (keptSearch text).Digits (lowestMajor text) := by
  unfold keptSearch lowestMajor
  split
  · exact digits_openMpi
  · exact digits_mpich

theorem parse_eq_ok_iff {text : List Char} {v : LibraryVersion}
    (hname : mpich.name <:+: text ∨ openMpi.name <:+: text) :
    parseLibraryVersion text = .ok v ↔
      ¬ intelMpi.name <:+: text ∧ (keptSearch text).run text = .ok v := by
  rw [parseLibraryVersion, keptSearch, except_bind_eq_ok]
  simp only [except_bind_eq_ok]
  by_cases himpi : intelMpi.name <:+: text
  · refine iff_of_false ?_ fun h => h.1 himpi
    rintro ⟨_, -, w, -, hrun⟩
    rw [block_named himpi, run_intelMpi] at hrun
    cases hrun
  simp only [himpi, not_false_iff, true_and, block_not_named himpi, Except.ok.injEq,
    exists_eq_right]
  by_cases hompi : openMpi.name <:+: text
  · rw [if_pos (strstr_isSome_iff.mpr hompi)]
    simp only [block_named hompi]
    constructor
    · rintro ⟨_, -, hrun⟩
      exact hrun
    · intro hrun
      obtain ⟨w, hw⟩ := mpich_returns hrun ⟨.unknownMpi, -1, -1, []⟩
      exact ⟨w, hw, hrun⟩
  · rw [if_neg (mt strstr_isSome_iff.mp hompi)]
    simp only [block_not_named hompi, block_named (hname.resolve_right hompi), Except.ok.injEq,
      exists_eq_right]

/-- A text with a version before all other digits is parsed as that version exactly if it does
not name the library whose versions overflow the buffer, has no lower major number and no higher
minor number elsewhere, and no higher major number with a minor number beyond `int`. -/
theorem parse_version_iff {pre rest text : List Char} {M m : Nat}
    (hpre : ∀ c ∈ pre, c.isDigit = false) (hrest : ∀ c ∈ rest.head?, c.isDigit = false)
    (hM : M ≤ 9) (hm : m ≤ 9) (htext : text = pre ++ (versionText M m ++ rest))
    (hname : mpich.name <:+: text ∧ 3 ≤ M ∨ openMpi.name <:+: text ∧ 2 ≤ M) :
    (∃ v, parseLibraryVersion text = .ok v ∧ v.major = M ∧ v.minor = m) ↔
      ¬ intelMpi.name <:+: text ∧
      (∀ j k, lowestMajor text ≤ j → j < M → k ≤ 9 → ¬ versionText j k <:+: text) ∧
      (∀ k, m < k → k ≤ 9 → ¬ versionText M k <:+: text) ∧
      ∀ j, M < j → j ≤ 9 → ∀ p, firstMatch text j = some p → InInt (minorOf p) := by
  have hlo : lowestMajor text ≤ M := by
    unfold lowestMajor
    rcases hname with ⟨-, hle⟩ | ⟨hompi, hle⟩
    · split <;> omega
    · rwa [if_pos (strstr_isSome_iff.mpr hompi)]
  simp only [parse_eq_ok_iff (hname.imp And.left And.left), and_assoc, exists_and_left]
  exact and_congr_right' ((digits_keptSearch text).run_iff hpre hrest hlo hM hm htext)

/-- The patch of a version may be taken for its minor number. -/
theorem parse_patch_taken : parseLibraryVersion "MPICH Version: 4.3.2".toList =
    .ok ⟨.mpich, 3, 2, []⟩ := by
  decide

theorem parse_version_iff_rc : ∃ v,
    parseLibraryVersion "MPICH Version: 3.4rc1".toList = .ok v ∧ v.major = 3 ∧ v.minor = 4 := by
  have hpre : ∀ c ∈ "MPICH Version: ".toList, c.isDigit = false := by simp
  have hrest : ∀ c ∈ "rc1".toList.head?, c.isDigit = false := by simp
  have hminor : ∀ k ≤ 9, 4 < k → ¬ versionText 3 k <:+: "MPICH Version: 3.4rc1".toList := by decide
  have hmajor : ∀ j ≤ 9, 3 < j → firstMatch "MPICH Version: 3.4rc1".toList j = none := by decide
  refine (parse_version_iff (M := 3) (m := 4) hpre hrest (by decide) (by decide) (by decide)
    (.inl (by decide))).mpr ⟨by decide, fun j k hlo hlt => ?_, fun k hlt hle => hminor k hle hlt,
      fun j hlt hle p hp => ?_⟩
  · exact absurd (show 3 ≤ j from hlo) (by omega)
  · rw [hmajor j hle hlt] at hp
    cases hp

end ArmciMpi
