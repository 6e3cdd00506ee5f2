import Mathlib.Data.List.Lex
import Mathlib.Order.Fin.Basic

namespace GenDepsMd

abbrev CodePoint := Fin 0x110000

abbrev PyStr := List CodePoint

theorem toNat_lt_codePoint_bound (c : Char) : c.toNat < 0x110000 := by
  have valid := c.valid
  simp only [UInt32.isValidChar, Nat.isValidChar] at valid
  unfold Char.toNat
  omega

def toCodePoint (c : Char) : CodePoint := ⟨c.toNat, toNat_lt_codePoint_bound c⟩

@[simp] theorem toCodePoint_val (c : Char) : (toCodePoint c).val = c.toNat := rfl

def py (s : String) : PyStr := s.toList.map toCodePoint

/-- `str.isspace` on one character: bidirectional class WS, B or S, or general category Zs. -/
def isspace (c : Char) : Bool :=
  let n := c.toNat
  (0x09 ≤ n && n ≤ 0x0D) || (0x1C ≤ n && n ≤ 0x20) || n == 0x85 || n == 0xA0 || n == 0x1680 ||
    (0x2000 ≤ n && n ≤ 0x200A) || n == 0x2028 || n == 0x2029 || n == 0x202F || n == 0x205F ||
    n == 0x3000

inductive PyFloat
  | nan
  | infinity (negative : Bool)
  | decimal (negative : Bool) (mantissa : Nat) (exponent : Int)
  deriving DecidableEq, Repr

def PyFloat.isZero : PyFloat → Bool
  | .decimal _ m e =>
    m == 0 || (decide (e < 0) && decide (m * Nat.pow 2 1075 ≤ Nat.pow 10 (-e).toNat))
  | _ => false

inductive PyValue
  | none
  | bool (b : Bool)
  | int (n : Int)
  | float (x : PyFloat)
  | str (s : PyStr)
  | list (items : List PyValue)
  | dict (entries : List (PyStr × PyValue))

namespace PyValue

def typeName : PyValue → String
  | .none => "NoneType"
  | .bool _ => "bool"
  | .int _ => "int"
  | .float _ => "float"
  | .str _ => "str"
  | .list _ => "list"
  | .dict _ => "dict"

/-- `bool(v)`, the test that `or` makes. -/
def toBool : PyValue → Bool
  | .none => false
  | .bool b => b
  | .int n => n != 0
  | .float x => !x.isZero
  | .str s => !s.isEmpty
  | .list items => !items.isEmpty
  | .dict entries => !entries.isEmpty

end PyValue

/-- `d[key] = value`: a new key goes last, a present key keeps its place and takes the value. -/
def dictSetItem : List (PyStr × PyValue) → PyStr → PyValue → List (PyStr × PyValue)
  | [], key, value => [(key, value)]
  | (k, v) :: rest, key, value =>
    if k = key then (key, value) :: rest else (k, v) :: dictSetItem rest key value

/-- `dict(pairs)`. -/
def dictOf (pairs : List (PyStr × PyValue)) : List (PyStr × PyValue) :=
  pairs.foldl (fun d kv => dictSetItem d kv.1 kv.2) []

inductive PyException
  | attributeError (typeName attr : String)
  | typeError (typeName : String)
  deriving DecidableEq, Repr

/-- `v.get(key, fallback)`, which only a `dict` has. -/
def PyValue.get (v : PyValue) (key : PyStr) (fallback : PyValue) : Except PyException PyValue :=
  match v with
  | .dict entries => .ok ((entries.lookup key).getD fallback)
  | v => .error (.attributeError v.typeName "get")

section
variable {ε α β : Type}

@[simp] theorem ok_bind (a : α) (f : α → Except ε β) : (Except.ok a >>= f) = f a := rfl

@[simp] theorem error_bind (e : ε) (f : α → Except ε β) : (Except.error e >>= f) = .error e := rfl

theorem bind_eq_ok {x : Except ε α} {f : α → Except ε β} {b : β} :
    x >>= f = .ok b ↔ ∃ a, x = .ok a ∧ f a = .ok b := by
  cases x <;> simp

end

def PyValue.asStr (v : PyValue) (attr : String) : Except PyException PyStr :=
  match v with
  | .str s => .ok s
  | v => .error (.attributeError v.typeName attr)

/-- What `for x in v` runs over: the items of a list, the one-character strings of a `str`, the
keys of a dict; any other value is not iterable. -/
def PyValue.iter : PyValue → Except PyException (List PyValue)
  | .list items => .ok items
  | .str s => .ok (s.map fun c => .str [c])
  | .dict entries => .ok (entries.map fun kv => .str kv.1)
  | v => .error (.typeError v.typeName)

end GenDepsMd
