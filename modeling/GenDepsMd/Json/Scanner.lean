import GenDepsMd.Python.Value

/-!
# The `json` scanner

`json.JSONDecoder().raw_decode(s, idx)` runs the scanner of the `_json` accelerator,
`scan_once_unicode`, from `idx` and returns the value read and the index after it. The scanner is
modelled on the suffix of the text it stands at: index `i` of `s` is `s.drop i`, and an error is
placed by the length of the text left from the character it is raised at, which `rawDecode` turns
back into the position Python reports. Every function takes a `fuel` argument that each of its
steps spends; `rawDecode` gives enough of it, which `Json.Errors` shows. The recursion of the C
scanner is bounded by Python's recursion limit: `limit` is how many more arrays and objects it
can enter, one less inside each. An integer of more than `intMaxStrDigits` digits raises the
`ValueError` of `int()`.
-/

namespace GenDepsMd.Json

structure DecodeError where
  msg : String
  remaining : Nat
  deriving DecidableEq, Repr

inductive ScanError
  | decode (e : DecodeError)
  | valueError (digits : Nat)
  | recursionError (msg : String)
  | outOfFuel
  deriving DecidableEq, Repr

/-- `json.JSONDecodeError(msg, doc, pos)`. -/
structure JSONDecodeError where
  msg : String
  doc : List Char
  pos : Nat
  deriving DecidableEq, Repr

inductive RawDecodeError
  | jsonDecodeError (e : JSONDecodeError)
  | valueError (digits : Nat)
  | recursionError (msg : String)
  | outOfFuel
  deriving DecidableEq, Repr

/-- An error of the scanner run on a suffix of `doc`, as Python raises it. -/
def ScanError.raise (doc : List Char) : ScanError → RawDecodeError
  | .decode e => .jsonDecodeError ⟨e.msg, doc, doc.length - e.remaining⟩
  | .valueError digits => .valueError digits
  | .recursionError msg => .recursionError msg
  | .outOfFuel => .outOfFuel

/-- `sys.get_int_max_str_digits()`, at its default. -/
def intMaxStrDigits : Nat := 4300

/-- `IS_WHITESPACE`: what the scanner passes over between the tokens of a value. -/
def isWhitespace (c : Char) : Bool := c == ' ' || c == '\t' || c == '\n' || c == '\r'

def skipWhitespace (cs : List Char) : List Char := cs.dropWhile isWhitespace

/-! ## Numbers -/

structure NumberText where
  negative : Bool
  intDigits : List Char
  fracDigits : Option (List Char)
  exponent : Option (Char × Option Char × List Char)
  deriving DecidableEq, Repr

def digitsValue (ds : List Char) : Nat := ds.foldl (fun n d => 10 * n + (d.toNat - '0'.toNat)) 0

def exponentValue : Option (Char × Option Char × List Char) → Int
  | none => 0
  | some (_, sign, ds) => if sign = some '-' then -(digitsValue ds : Int) else digitsValue ds

def fracText : Option (List Char) → List Char
  | some ds => '.' :: ds
  | none => []

def expText : Option (Char × Option Char × List Char) → List Char
  | some (e, sign, ds) => e :: (sign.toList ++ ds)
  | none => []

namespace NumberText

def text (n : NumberText) : List Char :=
  (if n.negative then ['-'] else []) ++ n.intDigits ++ fracText n.fracDigits ++ expText n.exponent

/-- `int(text)` without a fraction or an exponent, `float(text)` with one. -/
def value (n : NumberText) : PyValue :=
  match n.fracDigits, n.exponent with
  | none, none => .int (if n.negative then -(digitsValue n.intDigits : Int) else digitsValue n.intDigits)
  | frac, exp =>
    let fd := frac.getD []
    .float (.decimal n.negative (digitsValue (n.intDigits ++ fd)) (exponentValue exp - fd.length))

/-- `PyLong_FromString` refuses an integer text of more digits than `intMaxStrDigits`. -/
def overLimit (n : NumberText) : Bool :=
  n.fracDigits.isNone && n.exponent.isNone && decide (intMaxStrDigits < n.intDigits.length)

end NumberText

def intPart : List Char → Option (List Char × List Char)
  | c :: r =>
    if c = '0' then some (['0'], r)
    else if c.isDigit then some (c :: r.takeWhile Char.isDigit, r.dropWhile Char.isDigit)
    else none
  | [] => none

def fracPart (cs : List Char) : Option (List Char) × List Char :=
  match cs with
  | '.' :: c :: r =>
    if c.isDigit then (some (c :: r.takeWhile Char.isDigit), r.dropWhile Char.isDigit)
    else (none, cs)
  | _ => (none, cs)

def expSign : List Char → Option Char × List Char
  | s :: r => if s = '-' ∨ s = '+' then (some s, r) else (none, s :: r)
  | [] => (none, [])

def expPart (cs : List Char) : Option (Char × Option Char × List Char) × List Char :=
  match cs with
  | e :: r =>
    if (e = 'e' ∨ e = 'E') ∧ (expSign r).2.takeWhile Char.isDigit ≠ [] then
      (some (e, (expSign r).1, (expSign r).2.takeWhile Char.isDigit),
        (expSign r).2.dropWhile Char.isDigit)
    else (none, cs)
  | [] => (none, cs)

def numberSign : List Char → Bool × List Char
  | c :: r => if c = '-' then (true, r) else (false, c :: r)
  | [] => (false, [])

/-- `_match_number_unicode`: the longest `-?(0|[1-9][0-9]*)(\.[0-9]+)?([eE][-+]?[0-9]+)?` at the
start of `cs`. -/
def matchNumber (cs : List Char) : Option (NumberText × List Char) :=
  match intPart (numberSign cs).2 with
  | none => none
  | some (intDigits, r) =>
    some (⟨(numberSign cs).1, intDigits, (fracPart r).1, (expPart (fracPart r).2).1⟩,
      (expPart (fracPart r).2).2)

/-! ## Constants and strings -/

/-- The named constants `scan_once_unicode` recognises by their first character. -/
def constants : List (List Char × PyValue) :=
  [("null".toList, .none), ("true".toList, .bool true), ("false".toList, .bool false),
    ("NaN".toList, .float .nan), ("Infinity".toList, .float (.infinity false)),
    ("-Infinity".toList, .float (.infinity true))]

def scanConstant (cs : List Char) : Option (PyValue × List Char) :=
  constants.findSome? fun entry =>
    if entry.1.isPrefixOf cs then some (entry.2, cs.drop entry.1.length) else none

def simpleEscape : Char → Option Char
  | '"' => some '"'
  | '\\' => some '\\'
  | '/' => some '/'
  | 'b' => some '\x08'
  | 'f' => some '\x0c'
  | 'n' => some '\n'
  | 'r' => some '\r'
  | 't' => some '\t'
  | _ => none

def hexDigit (c : Char) : Option (Fin 16) :=
  let n := c.toNat
  if h : 0x30 ≤ n ∧ n ≤ 0x39 then some ⟨n - 0x30, by omega⟩
  else if h : 0x61 ≤ n ∧ n ≤ 0x66 then some ⟨n - 0x61 + 10, by omega⟩
  else if h : 0x41 ≤ n ∧ n ≤ 0x46 then some ⟨n - 0x41 + 10, by omega⟩
  else none

def hex4 : List Char → Option (Fin 0x10000 × List Char)
  | a :: b :: c :: d :: rest =>
    match hexDigit a, hexDigit b, hexDigit c, hexDigit d with
    | some a, some b, some c, some d =>
      some (⟨((a.val * 16 + b.val) * 16 + c.val) * 16 + d.val, by omega⟩, rest)
    | _, _, _, _ => none
  | _ => none

def isHighSurrogate (u : Fin 0x10000) : Bool := 0xD800 ≤ u.val && u.val ≤ 0xDBFF

def isLowSurrogate (u : Fin 0x10000) : Bool := 0xDC00 ≤ u.val && u.val ≤ 0xDFFF

def joinSurrogates (hi lo : Fin 0x10000) (h : isHighSurrogate hi) (l : isLowSurrogate lo) :
    CodePoint :=
  ⟨0x10000 + (hi.val - 0xD800) * 0x400 + (lo.val - 0xDC00), by
    simp only [isHighSurrogate, isLowSurrogate, Bool.and_eq_true, decide_eq_true_eq] at h l
    omega⟩

/-- A `\uXXXX` escape read after its `u`. A high surrogate takes the low one of a `\uXXXX` right
after it when at least one more character follows; otherwise it stands alone. -/
def scanUnicodeEscape (cs : List Char) : Except ScanError (CodePoint × List Char) :=
  match hex4 cs with
  | some (u, rest) =>
    if rest = [] then .error (.decode ⟨"Invalid \\uXXXX escape", cs.length + 1⟩)
    else if h : isHighSurrogate u then
      match rest with
      | '\\' :: 'u' :: more =>
        if more.length < 5 then .ok (Fin.castLE (by omega) u, rest)
        else
          match hex4 more with
          | some (lo, rest') =>
            if l : isLowSurrogate lo then .ok (joinSurrogates u lo h l, rest')
            else .ok (Fin.castLE (by omega) u, rest)
          | none => .error (.decode ⟨"Invalid \\uXXXX escape", more.length + 1⟩)
      | _ => .ok (Fin.castLE (by omega) u, rest)
    else .ok (Fin.castLE (by omega) u, rest)
  | none => .error (.decode ⟨"Invalid \\uXXXX escape", cs.length + 1⟩)

/-- `scanstring_unicode` (with `strict`, the default) after the opening quote, with the code points
read so far, last first. `begin` places the quote, where an unterminated string is reported. -/
def scanstring : Nat → Nat → List Char → List CodePoint → Except ScanError (PyStr × List Char)
  | 0, _, _, _ => .error .outOfFuel
  | _ + 1, begin, [], _ => .error (.decode ⟨"Unterminated string starting at", begin⟩)
  | fuel + 1, begin, c :: rest, chunks =>
    if c = '"' then .ok (chunks.reverse, rest)
    else if c = '\\' then
      match rest with
      | [] => .error (.decode ⟨"Unterminated string starting at", begin⟩)
      | 'u' :: more =>
        match scanUnicodeEscape more with
        | .ok (u, rest') => scanstring fuel begin rest' (u :: chunks)
        | .error e => .error e
      | e :: more =>
        match simpleEscape e with
        | some x => scanstring fuel begin more (toCodePoint x :: chunks)
        | none => .error (.decode ⟨"Invalid \\escape", more.length + 2⟩)
    else if c.toNat ≤ 0x1f then .error (.decode ⟨"Invalid control character at", rest.length + 1⟩)
    else scanstring fuel begin rest (toCodePoint c :: chunks)

/-! ## Values -/

mutual

/-- `scan_once_unicode` at the start of `cs`. -/
def scanOnce : Nat → Nat → List Char → Except ScanError (PyValue × List Char)
  | 0, _, _ => .error .outOfFuel
  | _ + 1, _, [] => .error (.decode ⟨"Expecting value", 0⟩)
  | fuel + 1, limit, c :: rest =>
    if c = '"' then
      match scanstring fuel (rest.length + 1) rest [] with
      | .ok (s, r) => .ok (.str s, r)
      | .error e => .error e
    else if c = '{' then
      if limit = 0 then
        .error (.recursionError
          "maximum recursion depth exceeded while decoding a JSON object from a unicode string")
      else
        match skipWhitespace rest with
        | '}' :: r => .ok (.dict [], r)
        | cs => objectItems fuel (limit - 1) cs []
    else if c = '[' then
      if limit = 0 then
        .error (.recursionError
          "maximum recursion depth exceeded while decoding a JSON array from a unicode string")
      else
        match skipWhitespace rest with
        | ']' :: r => .ok (.list [], r)
        | cs => arrayItems fuel (limit - 1) cs []
    else
      match scanConstant (c :: rest) with
      | some r => .ok r
      | none =>
        match matchNumber (c :: rest) with
        | some (n, r) =>
          if n.overLimit then .error (.valueError n.intDigits.length) else .ok (n.value, r)
        | none => .error (.decode ⟨"Expecting value", rest.length + 1⟩)

/-- The loop of `_parse_array_unicode`: a value, then `]`, or `,` and the next value. -/
def arrayItems : Nat → Nat → List Char → List PyValue → Except ScanError (PyValue × List Char)
  | 0, _, _, _ => .error .outOfFuel
  | fuel + 1, limit, cs, items =>
    match scanOnce fuel limit cs with
    | .error e => .error e
    | .ok (v, r) =>
      match skipWhitespace r with
      | ']' :: r' => .ok (.list (items ++ [v]), r')
      | ',' :: r' => arrayItems fuel limit (skipWhitespace r') (items ++ [v])
      | r' => .error (.decode ⟨"Expecting ',' delimiter", r'.length⟩)

/-- The loop of `_parse_object_unicode`: a key, `:`, a value, then `}`, or `,` and the next
member; each member is stored as `PyDict_SetItem` stores it. -/
def objectItems : Nat → Nat → List Char → List (PyStr × PyValue) →
    Except ScanError (PyValue × List Char)
  | 0, _, _, _ => .error .outOfFuel
  | fuel + 1, limit, '"' :: cs, entries =>
    match scanstring fuel (cs.length + 1) cs [] with
    | .error e => .error e
    | .ok (key, r) =>
      match skipWhitespace r with
      | ':' :: r' =>
        match scanOnce fuel limit (skipWhitespace r') with
        | .error e => .error e
        | .ok (v, r'') =>
          match skipWhitespace r'' with
          | '}' :: rest => .ok (.dict (dictSetItem entries key v), rest)
          | ',' :: rest => objectItems fuel limit (skipWhitespace rest) (dictSetItem entries key v)
          | rest => .error (.decode ⟨"Expecting ',' delimiter", rest.length⟩)
      | r' => .error (.decode ⟨"Expecting ':' delimiter", r'.length⟩)
  | _ + 1, _, cs, _ =>
    .error (.decode ⟨"Expecting property name enclosed in double quotes", cs.length⟩)

end

/-- `JSONDecoder().raw_decode(s, idx)`: the value at `idx` and the index after it, with `limit`
arrays and objects left before the recursion limit. Past the end, the `StopIteration` of the
scanner carries `idx` itself. -/
def rawDecode (limit : Nat) (s : List Char) (idx : Nat) : Except RawDecodeError (PyValue × Nat) :=
  if s.length < idx then .error (.jsonDecodeError ⟨"Expecting value", s, idx⟩)
  else
    match scanOnce (2 * (s.drop idx).length + 1) limit (s.drop idx) with
    | .ok (v, rest) => .ok (v, s.length - rest.length)
    | .error e => .error (e.raise s)

end GenDepsMd.Json
