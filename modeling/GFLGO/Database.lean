import Mathlib.Algebra.Order.Floor.Defs
import Mathlib.Algebra.Field.Basic
import Mathlib.Algebra.Order.Ring.Unbundled.Rat
import GFLGO.PathTree

/-!
The values the app keeps in Firebase, the order of their keys, and the casts
its scans make. `K` stands for Swift's `Double`.
-/

set_option autoImplicit false

namespace GFLGO

/-- `String(n)` -/
def stringOfInt (n : Int) : String := toString n

def digitsValue (cs : List Char) : Option Nat :=
  if cs ≠ [] ∧ cs.all Char.isDigit then some (Nat.ofDigitChars 10 cs 0) else none

def intOfChars : List Char → Option Int
  | '-' :: cs => (digitsValue cs).map (fun n => -(n : Int))
  | '+' :: cs => (digitsValue cs).map (fun n => (n : Int))
  | cs => (digitsValue cs).map (fun n => (n : Int))

/-- `Int(s)`: an optional sign and decimal digits. -/
def intOfString (s : String) : Option Int := intOfChars s.toList

theorem all_isDigit_toDigits (n : Nat) : (Nat.toDigits 10 n).all Char.isDigit = true :=
  List.all_eq_true.mpr (fun _ hc => Nat.isDigit_of_mem_toDigits (by omega) (by omega) hc)

theorem digitsValue_toDigits (n : Nat) : digitsValue (Nat.toDigits 10 n) = some n := by
  rw [digitsValue,if_pos ⟨Nat.toDigits_ne_nil,all_isDigit_toDigits n⟩,
    Nat.ofDigitChars_ten_toDigits]

theorem intOfChars_of_digits {cs : List Char} (h : cs.all Char.isDigit = true) :
    intOfChars cs = (digitsValue cs).map (fun n => (n : Int)) := by
  unfold intOfChars
  split
  · simp at h
  · simp at h
  · rfl

theorem toList_stringOfInt_ofNat (n : Nat) :
    (stringOfInt (Int.ofNat n)).toList = Nat.toDigits 10 n := Nat.toList_repr

theorem toList_stringOfInt_negSucc (n : Nat) :
    (stringOfInt (Int.negSucc n)).toList = '-' :: Nat.toDigits 10 (n+1) := by
  rw [show stringOfInt (Int.negSucc n) = "-" ++ Nat.repr (n+1) from rfl,
    String.toList_append,Nat.toList_repr]
  rfl

@[simp] theorem intOfString_stringOfInt (n : Int) : intOfString (stringOfInt n) = some n := by
  cases n with
  | ofNat n =>
    rw [intOfString,toList_stringOfInt_ofNat,intOfChars_of_digits (all_isDigit_toDigits n),
      digitsValue_toDigits]
    rfl
  | negSucc n =>
    rw [intOfString,toList_stringOfInt_negSucc,intOfChars,digitsValue_toDigits]
    rfl

theorem mem_stringOfInt {n : Int} {c : Char} (h : c ∈ (stringOfInt n).toList) :
    c.isDigit = true ∨ c = '-' := by
  cases n with
  | ofNat n =>
    rw [toList_stringOfInt_ofNat] at h
    exact Or.inl (List.all_eq_true.mp (all_isDigit_toDigits n) c h)
  | negSucc n =>
    rw [toList_stringOfInt_negSucc] at h
    rcases List.mem_cons.mp h with rfl | h
    · exact Or.inr rfl
    · exact Or.inl (List.all_eq_true.mp (all_isDigit_toDigits (n+1)) c h)

theorem stringOfInt_injective {m n : Int} (h : stringOfInt m = stringOfInt n) : m = n := by
  have hi := congrArg intOfString h
  simpa using hi

def tryParseStringToInt (s : List Char) : Option Int :=
  if s.length > 11 ∨ s.length = 0 then none
  else
    let value := match s with
      | '-' :: cs => (digitsValue cs).map (fun n => -(n : Int))
      | cs => (digitsValue cs).map (fun n => (n : Int))
    value.filter (fun v => -2147483648 ≤ v ∧ v ≤ 2147483647)

/-- Integer keys come first, in numeric order; all others by their characters. The literal
search compares UTF-16 units, which is the same on the app's keys: they are ASCII. -/
def compareKey (a b : String) : Ordering :=
  match tryParseStringToInt a.toList, tryParseStringToInt b.toList with
  | some m, some n => (compare m n).then (compare a.length b.length)
  | some _, none => .lt
  | none, some _ => .gt
  | none, none => compare (a.toList.map Char.toNat) (b.toList.map Char.toNat)

instance : KeyOrder String where
  precedes a b := compareKey a b == .lt

/-- What a leaf holds: an `NSString`, or an `NSNumber` made from an `Int` or a `Double`. -/
inductive Value (K : Type) where
  | string (s : String)
  | int (n : Int)
  | double (x : K)
  deriving DecidableEq, Repr

abbrev FNode (K : Type) := PathTree String (Value K)

/-- The functions of the app that read a snapshot. -/
inductive Reader where
  | checkIfUserExists
  | addUserToFirebase
  | loginIfValid
  | changeIfValidPassword
  | findEnemiesAroundUser
  | findPlayersAroundUser
  | getNumberOfEnemiesAroundUser
  deriving DecidableEq, Repr

/-- A failed force cast or force unwrap. -/
inductive Trap where
  | cast (reader : Reader) (field : String)
  | userID (reader : Reader)
  | userLocation
  | noLocations
  | enemy
  deriving DecidableEq, Repr

section
variable {α β : Type}

def unwrap (t : Trap) : Option α → Except Trap α
  | some a => .ok a
  | none => .error t

@[simp] theorem unwrap_some (t : Trap) (a : α) : unwrap t (some a) = .ok a := rfl

theorem bind_eq_ok {x : Except Trap α} {f : α → Except Trap β} {b : β} :
    x >>= f = .ok b ↔ ∃ a, x = .ok a ∧ f a = .ok b := by
  cases x with
  | error t => simp [bind,Except.bind]
  | ok a => simp [bind,Except.bind]

theorem bind_eq_error {x : Except Trap α} {f : α → Except Trap β} {t : Trap} :
    x >>= f = .error t ↔ x = .error t ∨ ∃ a, x = .ok a ∧ f a = .error t := by
  cases x with
  | error u => simp [bind,Except.bind]
  | ok a => simp [bind,Except.bind]

theorem toOption_eq_some {x : Except Trap α} {a : α} : x.toOption = some a ↔ x = .ok a := by
  cases x <;> simp [Except.toOption]

theorem unwrap_eq_error {t u : Trap} {o : Option α} : unwrap t o = .error u ↔ o = none ∧ t = u := by
  cases o <;> simp [unwrap]

theorem unwrap_eq_ok {t : Trap} {o : Option α} {a : α} : unwrap t o = .ok a ↔ o = some a := by
  cases o <;> simp [unwrap]

end

section
variable {K : Type}

/-- `childSnapshot(forPath: field).value as! String` -/
def asString (reader : Reader) (field : String) (child : FNode K) : Except Trap String :=
  match child.getImmediateChild field with
  | .leaf (.string s) => .ok s
  | _ => .error (.cast reader field)

/-- An `NSNumber` bridges to `Double` whichever of the two it was made from. -/
def asDouble [Field K] (reader : Reader) (field : String) (child : FNode K) : Except Trap K :=
  match child.getImmediateChild field with
  | .leaf (.double x) => .ok x
  | .leaf (.int n) => .ok (n : K)
  | _ => .error (.cast reader field)

/-- An `NSNumber` bridges to `Int` when its value is one. -/
def asInt [Field K] [LinearOrder K] [FloorRing K] (reader : Reader) (field : String)
    (child : FNode K) : Except Trap Int :=
  match child.getImmediateChild field with
  | .leaf (.int n) => .ok n
  | .leaf (.double x) => if (⌊x⌋ : K) = x then .ok ⌊x⌋ else .error (.cast reader field)
  | _ => .error (.cast reader field)

theorem asString_eq_error {reader : Reader} {field : String} {child : FNode K} {t : Trap}
    (h : asString reader field child = .error t) : t = .cast reader field := by
  unfold asString at h
  split at h
  · contradiction
  · exact (Except.error.inj h).symm

theorem asDouble_eq_error [Field K] {reader : Reader} {field : String} {child : FNode K}
    {t : Trap} (h : asDouble reader field child = .error t) : t = .cast reader field := by
  unfold asDouble at h
  split at h
  · contradiction
  · contradiction
  · exact (Except.error.inj h).symm

theorem asInt_eq_error [Field K] [LinearOrder K] [FloorRing K] {reader : Reader}
    {field : String} {child : FNode K} {t : Trap} (h : asInt reader field child = .error t) :
    t = .cast reader field := by
  unfold asInt at h
  split at h
  · contradiction
  · split at h
    · contradiction
    · exact (Except.error.inj h).symm
  · exact (Except.error.inj h).symm

/-- A write on its way to the store: the new subtree at a path. -/
structure Write (K : Type) where
  path : List String
  node : FNode K

def setValue (path : List String) (v : Value K) : Write K := ⟨path,.leaf v⟩

def removeValue (path : List String) : Write K := ⟨path,.empty⟩

/-- `setValue(nil)` removes. -/
def setOptional (path : List String) : Option (Value K) → Write K
  | some v => setValue path v
  | none => removeValue path

def applyWrite (w : Write K) (store : FNode K) : FNode K := store.updateChild w.path w.node

end

end GFLGO
