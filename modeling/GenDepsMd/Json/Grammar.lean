import GenDepsMd.Json.Scanner

namespace GenDepsMd.Json

def IsWs (w : List Char) : Prop := ∀ c ∈ w, isWhitespace c = true

instance (w : List Char) : Decidable (IsWs w) :=
  inferInstanceAs (Decidable (∀ c ∈ w, isWhitespace c = true))

def IntDigits (ds : List Char) : Prop :=
  ds = ['0'] ∨ ∃ d rest, ds = d :: rest ∧ d ≠ '0' ∧ d.isDigit ∧ ∀ c ∈ rest, c.isDigit

def FracDigits : Option (List Char) → Prop
  | some ds => ds ≠ [] ∧ ∀ c ∈ ds, c.isDigit
  | none => True

def ExpDigits : Option (Char × Option Char × List Char) → Prop
  | some (e, sign, ds) => (e = 'e' ∨ e = 'E') ∧ (sign = none ∨ sign = some '-' ∨ sign = some '+') ∧
      ds ≠ [] ∧ ∀ c ∈ ds, c.isDigit
  | none => True

structure NumberText.Valid (n : NumberText) : Prop where
  int_digits : IntDigits n.intDigits
  frac_digits : FracDigits n.fracDigits
  exponent : ExpDigits n.exponent

def Hex4 (ds : List Char) (u : Fin 0x10000) : Prop := hex4 ds = some (u, [])

def StartsWithLowEscape (t : List Char) : Prop :=
  ∃ es lo rest, t = '\\' :: 'u' :: es ++ rest ∧ Hex4 es lo ∧ isLowSurrogate lo

inductive StringBody : List Char → PyStr → Prop
  | nil : StringBody [] []
  | unescaped {c : Char} {t : List Char} {s : PyStr} : c ≠ '"' → c ≠ '\\' → 0x20 ≤ c.toNat →
      StringBody t s → StringBody (c :: t) (toCodePoint c :: s)
  | escape {e x : Char} {t : List Char} {s : PyStr} : simpleEscape e = some x →
      StringBody t s → StringBody ('\\' :: e :: t) (toCodePoint x :: s)
  | unicode {ds : List Char} {u : Fin 0x10000} {t : List Char} {s : PyStr} : Hex4 ds u →
      ¬ (isHighSurrogate u ∧ StartsWithLowEscape t) → StringBody t s →
      StringBody ('\\' :: 'u' :: ds ++ t) (Fin.castLE (by omega) u :: s)
  | pair {ds es : List Char} {hi lo : Fin 0x10000} {t : List Char} {s : PyStr}
      (high : isHighSurrogate hi) (low : isLowSurrogate lo) : Hex4 ds hi → Hex4 es lo →
      StringBody t s →
      StringBody ('\\' :: 'u' :: ds ++ '\\' :: 'u' :: es ++ t) (joinSurrogates hi lo high low :: s)

def isNumeral : PyValue → Bool
  | .int _ => true
  | .float (.decimal ..) => true
  | _ => false

structure Element where
  before : List Char
  text : List Char
  value : PyValue
  after : List Char

def Element.padded (e : Element) : List Char := e.before ++ e.text ++ e.after

structure Member where
  before : List Char
  keyBody : List Char
  key : PyStr
  beforeColon : List Char
  element : Element

def Member.text (m : Member) : List Char :=
  m.before ++ '"' :: m.keyBody ++ '"' :: m.beforeColon ++ ':' :: m.element.padded

def Member.pair (m : Member) : PyStr × PyValue := (m.key, m.element.value)

inductive Text : List Char → PyValue → Prop
  | constant {t : List Char} {v : PyValue} : (t, v) ∈ constants → Text t v
  | number (n : NumberText) : n.Valid → Text n.text n.value
  | string {b : List Char} {s : PyStr} : StringBody b s → Text ('"' :: b ++ ['"']) (.str s)
  | emptyArray {w : List Char} : IsWs w → Text ('[' :: w ++ [']']) (.list [])
  | array (e : Element) (es : List Element) :
      (∀ x ∈ e :: es, IsWs x.before ∧ IsWs x.after) → (∀ x ∈ e :: es, Text x.text x.value) →
      Text ('[' :: e.padded ++ es.flatMap (fun x => ',' :: x.padded) ++ [']'])
        (.list ((e :: es).map Element.value))
  | emptyObject {w : List Char} : IsWs w → Text ('{' :: w ++ ['}']) (.dict [])
  | object (m : Member) (ms : List Member) :
      (∀ x ∈ m :: ms, IsWs x.before ∧ StringBody x.keyBody x.key ∧ IsWs x.beforeColon ∧
        IsWs x.element.before ∧ IsWs x.element.after) →
      (∀ x ∈ m :: ms, Text x.element.text x.element.value) →
      Text ('{' :: m.text ++ ms.flatMap (fun x => ',' :: x.text) ++ ['}'])
        (.dict (dictOf ((m :: ms).map Member.pair)))

inductive Within : Nat → List Char → PyValue → Prop
  | constant {limit : Nat} {t : List Char} {v : PyValue} : (t, v) ∈ constants → Within limit t v
  | number {limit : Nat} (n : NumberText) : n.Valid → n.overLimit = false →
      Within limit n.text n.value
  | string {limit : Nat} {b : List Char} {s : PyStr} : StringBody b s →
      Within limit ('"' :: b ++ ['"']) (.str s)
  | emptyArray {limit : Nat} {w : List Char} : IsWs w →
      Within (limit + 1) ('[' :: w ++ [']']) (.list [])
  | array {limit : Nat} (e : Element) (es : List Element) :
      (∀ x ∈ e :: es, IsWs x.before ∧ IsWs x.after) → (∀ x ∈ e :: es, Within limit x.text x.value) →
      Within (limit + 1) ('[' :: e.padded ++ es.flatMap (fun x => ',' :: x.padded) ++ [']'])
        (.list ((e :: es).map Element.value))
  | emptyObject {limit : Nat} {w : List Char} : IsWs w →
      Within (limit + 1) ('{' :: w ++ ['}']) (.dict [])
  | object {limit : Nat} (m : Member) (ms : List Member) :
      (∀ x ∈ m :: ms, IsWs x.before ∧ StringBody x.keyBody x.key ∧ IsWs x.beforeColon ∧
        IsWs x.element.before ∧ IsWs x.element.after) →
      (∀ x ∈ m :: ms, Within limit x.element.text x.element.value) →
      Within (limit + 1) ('{' :: m.text ++ ms.flatMap (fun x => ',' :: x.text) ++ ['}'])
        (.dict (dictOf ((m :: ms).map Member.pair)))

theorem Within.text {limit : Nat} {t : List Char} {v : PyValue} (h : Within limit t v) :
    Text t v := by
  induction h with
  | constant member => exact .constant member
  | number n valid _ => exact .number n valid
  | string body => exact .string body
  | emptyArray ws => exact .emptyArray ws
  | array e es spaces _ ih => exact .array e es spaces ih
  | emptyObject ws => exact .emptyObject ws
  | object m ms fields _ ih => exact .object m ms fields ih

end GenDepsMd.Json
