import ArmciMpi.Mpi.Memory

/-!
# The arguments of message calls

Element types with their comparisons, scopes and the names of operators. An
element is a list of bytes, the lowest first; `signedAt` reads an integer at the
start of some data.
-/

namespace ArmciMpi

/-- The types of `enum armci_type_e` and their MPI types. -/
inductive ElemType
  | int
  | long
  | longLong
  | float
  | double
  deriving DecidableEq

inductive MsgType
  | elem (e : ElemType)
  | other (code : Int)
  deriving DecidableEq

inductive Scope
  | all
  | node
  | masters
  deriving DecidableEq

inductive MinMax
  | min
  | max
  deriving DecidableEq

/-- `MPI_COMM_SELF`. -/
def commSelf (me : Nat) : Comm := ⟨1, [me], List.nodup_singleton me⟩

def Scope.comm (scope : Scope) (comm : Option Comm) (me : Nat) : Option Comm :=
  if scope = .all ∨ scope = .masters then comm else some (commSelf me)

/-- `strncmp(op, name, strlen(name)) == 0`. -/
def startsAs (op name : String) : Bool := op.toList.take name.length = name.toList

/-- A signed integer of `k` bytes at the start of the data. -/
def signedAt (k : Nat) (data : List UInt8) : Int :=
  ((leVal (data.take k) : Nat) : Int).bmod (2 ^ (8 * k))

def MinMax.test {α : Type} [LT α] [DecidableLT α] (kind : MinMax) (x y : α) : Bool :=
  match kind with
  | min => x < y
  | max => x > y

namespace ElemType

def size : ElemType → Nat
  | int => 4
  | long => 8
  | longLong => 8
  | float => 4
  | double => 8

def Signed (e : ElemType) : Prop := e ≠ float ∧ e ≠ double

def test (kind : MinMax) (e : ElemType) (x y : List UInt8) : Bool :=
  match e with
  | int => kind.test (signedAt 4 x) (signedAt 4 y)
  | long => kind.test (signedAt 8 x) (signedAt 8 y)
  | longLong => kind.test (signedAt 8 x) (signedAt 8 y)
  | float => kind.test (floatAt (x.take 4)) (floatAt (y.take 4))
  | double => kind.test (doubleAt (x.take 8)) (doubleAt (y.take 8))

theorem size_pos (e : ElemType) : 0 < e.size := by
  cases e <;> decide

theorem test_eq {e : ElemType} (he : e.Signed) (kind : MinMax) (x y : List UInt8) :
    e.test kind x y = kind.test (signedAt e.size x) (signedAt e.size y) := by
  cases e with
  | float => exact absurd rfl he.1
  | double => exact absurd rfl he.2
  | _ => rfl

end ElemType

namespace MinMax

def le : MinMax → Int → Int → Prop
  | min, x, y => x ≤ y
  | max, x, y => y ≤ x

def sign : MinMax → Int → Int
  | min, x => -x
  | max, x => x

theorem test_iff (kind : MinMax) (x y : Int) :
    kind.test x y = true ↔ kind.sign y < kind.sign x := by
  cases kind <;> simp [test, sign]

theorem sign_le_iff (kind : MinMax) (x y : Int) : kind.sign y ≤ kind.sign x ↔ kind.le x y := by
  cases kind <;> simp [le, sign]

theorem sign_inj (kind : MinMax) {x y : Int} (h : kind.sign x = kind.sign y) : x = y := by
  cases kind
  · exact neg_inj.mp h
  · exact h

end MinMax

end ArmciMpi
