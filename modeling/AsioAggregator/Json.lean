import AsioAggregator.Numeral

/-!
# JSON values and their accesses

The values that `json::parse` returns, and the accesses that the parsers make, as the library
documents them. A `const` access to an absent key or past the end of an array is undefined; the
other accesses either insert a null or throw.
-/

namespace AsioAggregator

/-- A JSON value. An object lists its members in the order in which they are iterated. -/
inductive Json where
  | null
  | bool (b : Bool)
  | number (q : ℚ)
  | string (s : String)
  | array (items : List Json)
  | object (members : List (String × Json))

namespace Json

/-- `operator[]` applied to a value that is neither the container nor null. -/
def badSubscript : Fault := .exception (.typeError 305)

/-- `get<std::string>()` applied to a value that is no string. -/
def notAString : Fault := .exception (.typeError 302)

def member? : Json → String → Option Json
  | .object members, key => members.lookup key
  | _, _ => none

def contains (j : Json) (key : String) : Bool := (j.member? key).isSome

def equalsText : Json → String → Bool
  | .string s, text => s = text
  | _, _ => false

def memberIs (j : Json) (key text : String) : Bool :=
  match j.member? key with
  | some value => value.equalsText text
  | none => false

def isObject : Json → Bool
  | .object _ => true
  | _ => false

/-- `j[key]` on a value that may be modified: an absent key is inserted with a null. -/
def subscript : Json → String → Except Fault Json
  | .null, _ => .ok .null
  | .object members, key => .ok ((members.lookup key).getD .null)
  | _, _ => .error badSubscript

/-- `j[key]` on a `const` value: the key of an object has to be there. -/
def constSubscript : Json → String → Except Fault Json
  | .object members, key =>
    match members.lookup key with
    | some value => .ok value
    | none => .error .undefinedAccess
  | _, _ => .error badSubscript

/-- `j[i]` on a value that may be modified: a short array is filled up with nulls. -/
def index : Json → ℕ → Except Fault Json
  | .null, _ => .ok .null
  | .array items, i => .ok (items[i]?.getD .null)
  | _, _ => .error badSubscript

/-- `j[i]` on a `const` value: the array has to be long enough. -/
def constIndex : Json → ℕ → Except Fault Json
  | .array items, i =>
    match items[i]? with
    | some value => .ok value
    | none => .error .undefinedAccess
  | _, _ => .error badSubscript

def getString : Json → Except Fault String
  | .string s => .ok s
  | _ => .error notAString

/-- What a range-based `for` over the value visits: a value that is no container is visited
itself, except for null. -/
def elements : Json → List Json
  | .null => []
  | .array items => items
  | .object members => members.map Prod.snd
  | j => [j]

section Members
variable {j value : Json} {key text text' : String}

theorem contains_of_member? (h : j.member? key = some value) : j.contains key = true := by
  rw [contains, h]
  rfl

theorem subscript_of_member? (h : j.member? key = some value) : j.subscript key = .ok value := by
  cases j with
  | object members =>
    have hlookup : members.lookup key = some value := h
    simp only [subscript, hlookup, Option.getD_some]
  | _ => cases h

theorem constSubscript_of_member? (h : j.member? key = some value) :
    j.constSubscript key = .ok value := by
  cases j with
  | object members =>
    have hlookup : members.lookup key = some value := h
    simp only [constSubscript, hlookup]
  | _ => cases h

theorem object_of_contains (h : j.contains key) : ∃ members, j = .object members := by
  cases j with
  | object members => exact ⟨members, rfl⟩
  | _ => cases h

theorem object_of_memberIs (h : j.memberIs key text) : ∃ members, j = .object members := by
  cases j with
  | object members => exact ⟨members, rfl⟩
  | _ => cases h

theorem memberIs_of_ne (h : j.memberIs key text) (hne : text ≠ text') :
    j.memberIs key text' = false := by
  unfold memberIs at h ⊢
  cases hv : j.member? key with
  | none => rfl
  | some v => cases v <;> simp_all [equalsText]

end Members
end Json

def readLevel {D : Type} [OfNumeral D] (level : Json) : Except Fault (D × D) := do
  let price ← stod (← (← level.constIndex 0).getString)
  let qty ← stod (← (← level.constIndex 1).getString)
  return (price, qty)

/-- A decoder for finitely many texts, which rejects all others. -/
def decodeTable (table : List (String × Json)) (text : String) : Except StdException Json :=
  match table.lookup text with
  | some j => .ok j
  | none => .error .parseError

section Decoding
variable {text text' : String} {j : Json} {table : List (String × Json)}

theorem decodeTable_cons_self : decodeTable ((text, j) :: table) text = .ok j := by
  simp [decodeTable]

theorem decodeTable_cons_of_ne (h : text ≠ text') :
    decodeTable ((text', j) :: table) text = decodeTable table text := by
  have hne : (text == text') = false := by simpa using h
  simp [decodeTable, List.lookup, hne]

end Decoding

def Json.level (price qty : String) : Json := .array [.string price, .string qty]

end AsioAggregator
