import Mathlib.Algebra.Ring.Int.Defs
import Mathlib.Data.List.Basic

/-!
# The log filter

`CreateFilterMaps` and `StringTrim` of `cxxutil/log.cpp`. Strings are their bytes, none of which
is 0, and a pointer into a string is what is left of it.
-/

namespace CambriconGst.Cxxutil

abbrev Bytes := List UInt8

def space : UInt8 := 0x20

def comma : UInt8 := 0x2C

def colon : UInt8 := 0x3A

/-- `StringTrim`: removes all spaces. -/
def stringTrim : Bytes → Bytes
  | [] => []
  | c :: cs => if c = space then stringTrim cs else c :: stringTrim cs

/-- `strchr`. -/
def strchr (c : UInt8) : Bytes → Option Bytes
  | [] => none
  | x :: xs => if x = c then some (x :: xs) else strchr c xs

theorem strchr_length_le {c : UInt8} {s t : Bytes} (h : strchr c s = some t) :
    t.length ≤ s.length ∧ 0 < t.length := by
  induction s with
  | nil => cases h
  | cons x xs ih =>
    unfold strchr at h
    split at h
    · obtain rfl := Option.some.inj h
      exact ⟨Nat.le_refl _, Nat.succ_pos _⟩
    · exact ⟨Nat.le_succ_of_le (ih h).1, (ih h).2⟩

/-- `std::toupper`, in the locale the program starts with. -/
def toupper (c : UInt8) : UInt8 :=
  if 0x61 ≤ c ∧ c ≤ 0x7A then c - 0x20 else c

/-! ## `%d` of `sscanf` -/

/-- `isspace`. -/
def isSpace (c : UInt8) : Bool :=
  c = space ∨ 0x09 ≤ c ∧ c ≤ 0x0D

def isDigit (c : UInt8) : Bool :=
  0x30 ≤ c ∧ c ≤ 0x39

def digitsValue (digits : Bytes) : Nat :=
  digits.foldl (fun n c => 10 * n + (c.toNat - 0x30)) 0

/-- An optional sign: whether it is a minus, and what follows. -/
def scanSign : Bytes → Bool × Bytes
  | [] => (false, [])
  | c :: cs => if c = 0x2D then (true, cs) else if c = 0x2B then (false, cs) else (false, c :: cs)

/-- The decimal integer that a string starts with, behind white space. -/
def scanInt (s : Bytes) : Option Int :=
  let (negative, s) := scanSign (s.dropWhile isSpace)
  let digits := s.takeWhile isDigit
  if digits.isEmpty then none
  else some (if negative then -(digitsValue digits : Int) else digitsValue digits)

/-- The integer is one of type `int`. -/
def IntFits (n : Int) : Prop :=
  -2 ^ 31 ≤ n ∧ n < 2 ^ 31

instance (n : Int) : Decidable (IntFits n) :=
  inferInstanceAs (Decidable (_ ∧ _))

/-- `category_level`. The conversion of an integer that is not an `int` is undefined. -/
def categoryLevel (minLogLevel : Int) (s : Bytes) : Option Int :=
  match scanInt s with
  | none => some minLogLevel
  | some n => if IntFits n then some n else none

/-! ## `CreateFilterMaps` -/

/-- Categories with the numbers that are converted to `LogSeverity`. -/
abbrev CategoryFilterMaps := List (Bytes × Int)

/-- `insert`: a category that is there keeps its level. -/
def CategoryFilterMaps.insert (maps : CategoryFilterMaps) (pattern : Bytes) (level : Int) :
    CategoryFilterMaps :=
  if (maps.lookup pattern).isSome then maps else maps ++ [(pattern, level)]

/-- The loop from `category` on; none when it is undefined. -/
def filterLoop (minLogLevel : Int) (category : Bytes) (maps : CategoryFilterMaps) :
    Option CategoryFilterMaps :=
  match _hsep : strchr colon category with
  | none => some maps
  | some sep =>
    let pattern := (category.take (category.length - sep.length)).map toupper
    match categoryLevel minLogLevel sep.tail with
    | none => none
    | some level =>
      let maps := maps.insert pattern level
      match _hnext : strchr comma sep with
      | none => some maps
      | some next => filterLoop minLogLevel next.tail maps
termination_by category.length
decreasing_by
  have h₁ := strchr_length_le _hsep
  have h₂ := strchr_length_le _hnext
  rw [List.length_tail]
  omega

/-- `CreateFilterMaps`: none when it is undefined, and otherwise the pointer that it returns. -/
def createFilterMaps (minLogLevel : Int) (logFilter : Bytes) : Option (Option CategoryFilterMaps) :=
  let filterStr := stringTrim logFilter
  if filterStr.isEmpty then some none
  else (filterLoop minLogLevel filterStr []).map some

end CambriconGst.Cxxutil
