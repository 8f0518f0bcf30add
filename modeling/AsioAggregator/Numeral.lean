import Mathlib

/-!
# Reading numbers from text

`stod` follows `std::stod`: white space, a sign, and then the longest numeral that `strtod` accepts
(decimal, hexadecimal or an infinity); what follows it is ignored. The conversion of the numeral to
a `double` is the class `OfNumeral`, so that a number type with rounding and one with exact
arithmetic share every definition. The type of `double` values has no NaN here: a text that reads
as one is the fault `nan`, about which nothing is claimed.
-/

namespace AsioAggregator

inductive StdException where
  | parseError
  | typeError (id : ℕ)
  | invalidArgument
  | outOfRange
deriving DecidableEq, Repr

/-- How an evaluation ends early: by an exception, or outside what the libraries define. -/
inductive Fault where
  | exception (e : StdException)
  | undefinedAccess
  | nan
deriving DecidableEq, Repr

instance exceptDecidableEq {ε α : Type} [DecidableEq ε] [DecidableEq α] :
    DecidableEq (Except ε α)
  | .ok a, .ok a' => decidable_of_iff (a = a') (by simp)
  | .error e, .error e' => decidable_of_iff (e = e') (by simp)
  | .ok _, .error _ | .error _, .ok _ => isFalse (by simp)

/-- What the text of a number denotes before it is rounded. -/
inductive Numeral where
  | finite (q : ℚ)
  | infinite (negative : Bool)
  | nan
deriving DecidableEq

/-- The conversion of a numeral to a `double`, with `outOfRange` where `strtod` sets `ERANGE`. -/
class OfNumeral (D : Type) where
  ofNumeral : Numeral → Except Fault D

/-- Exact arithmetic: no rounding, no bound on the range, and no infinities. -/
instance : OfNumeral ℚ where
  ofNumeral
    | .finite q => .ok q
    | .infinite _ => .error (.exception .outOfRange)
    | .nan => .error .nan

def isSpace (c : Char) : Bool :=
  c = ' ' || (9 ≤ c.toNat && c.toNat ≤ 13)

def digitValue (c : Char) : ℕ :=
  if c.isDigit then c.toNat - 48
  else if c.isLower then c.toNat - 87
  else if c.isUpper then c.toNat - 55
  else 36

def isDigitOf (base : ℕ) (c : Char) : Bool := digitValue c < base

def natOfDigits (base : ℕ) (ds : List Char) : ℕ :=
  Nat.ofDigits base (ds.map digitValue).reverse

def scanSign : List Char → Bool × List Char
  | '-' :: cs => (true, cs)
  | '+' :: cs => (false, cs)
  | cs => (false, cs)

def scanExponent (marker : Char) : List Char → ℤ
  | [] => 0
  | c :: cs =>
    if c.toLower = marker then
      let (negative, rest) := scanSign cs
      let n : ℤ := natOfDigits 10 (rest.takeWhile (isDigitOf 10))
      if negative then -n else n
    else 0

/-- Digits with an optional point, of which at least one digit, and an optional exponent. -/
def scanPositional (base expBase : ℕ) (marker : Char) (cs : List Char) : Option ℚ :=
  let whole := cs.takeWhile (isDigitOf base)
  let afterWhole := cs.dropWhile (isDigitOf base)
  let fraction := match afterWhole with
    | '.' :: rest => rest.takeWhile (isDigitOf base)
    | _ => []
  let afterFraction := match afterWhole with
    | '.' :: rest => rest.dropWhile (isDigitOf base)
    | _ => afterWhole
  if whole ++ fraction = [] then none
  else some (natOfDigits base (whole ++ fraction) / (base : ℚ) ^ fraction.length *
    (expBase : ℚ) ^ scanExponent marker afterFraction)

def startsWithNoCase (word : List Char) (cs : List Char) : Bool :=
  (cs.take word.length).map Char.toLower = word

def scanMagnitude (cs : List Char) : Option Numeral :=
  if startsWithNoCase ['i', 'n', 'f'] cs then some (.infinite false)
  else if startsWithNoCase ['n', 'a', 'n'] cs then some .nan
  else if startsWithNoCase ['0', 'x'] cs then
    -- without a hexadecimal digit after the prefix only the zero is read
    some (.finite ((scanPositional 16 2 'p' (cs.drop 2)).getD 0))
  else (scanPositional 10 10 'e' cs).map .finite

def negate : Numeral → Numeral
  | .finite q => .finite (-q)
  | .infinite negative => .infinite !negative
  | .nan => .nan

/-- The numeral at the start of the text, if there is one. -/
def strtod (s : String) : Option Numeral :=
  let (negative, rest) := scanSign (s.toList.dropWhile isSpace)
  (scanMagnitude rest).map fun n => if negative then negate n else n

def stod {D : Type} [OfNumeral D] (s : String) : Except Fault D :=
  match strtod s with
  | none => .error (.exception .invalidArgument)
  | some n => OfNumeral.ofNumeral n

end AsioAggregator
