import GenDepsMd.Json.Completeness
import GenDepsMd.Json.Errors

namespace GenDepsMd.Json

def NumberEnds (r tail : List Char) : Prop :=
  (r = [] → NumStop tail) ∧ ∀ c ∈ r.head?, c ≠ '.' ∧ c ≠ 'e' ∧ c ≠ 'E'

theorem ValueStart.not_numberTail {c : Char} (h : ValueStart c) :
    c ≠ '.' ∧ c ≠ 'e' ∧ c ≠ 'E' := by
  rcases h with rfl | rfl | rfl | rfl | rfl | rfl | rfl | rfl | rfl | digit
  any_goals decide
  exact ⟨ne_of_isDigit digit rfl, ne_of_isDigit digit rfl, ne_of_isDigit digit rfl⟩

theorem takeWhile_dropWhile_append {α : Type} {p : α → Bool} {l : List α}
    (h : l.dropWhile p ≠ []) (t : List α) :
    (l ++ t).takeWhile p = l.takeWhile p ∧ (l ++ t).dropWhile p = l.dropWhile p ++ t := by
  induction l with
  | nil => exact absurd rfl h
  | cons a l ih =>
    cases hp : p a
    · simp [List.takeWhile_cons, List.dropWhile_cons, hp]
    · simp only [List.dropWhile_cons, hp, if_true] at h
      simp [List.takeWhile_cons, List.dropWhile_cons, hp, ih h]

/-! ## The groups of a number -/

theorem numberSign_append {cs : List Char} (h : cs ≠ []) (t : List Char) :
    numberSign (cs ++ t) = ((numberSign cs).1, (numberSign cs).2 ++ t) := by
  match cs, h with
  | c :: rest, _ =>
    simp only [List.cons_append, numberSign]
    split_ifs <;> rfl

theorem intPart_append {cs ds r : List Char} (h : intPart cs = some (ds, r)) (nonempty : r ≠ [])
    (t : List Char) : intPart (cs ++ t) = some (ds, r ++ t) := by
  match cs, h with
  | c :: rest, h =>
    simp only [List.cons_append, intPart] at h ⊢
    split_ifs at h ⊢
    · cases h
      rfl
    · obtain ⟨rfl, rfl⟩ := Prod.mk.inj (Option.some.inj h)
      obtain ⟨take, drop⟩ := takeWhile_dropWhile_append nonempty t
      rw [take, drop]

theorem fracPart_of_not_frac {cs : List Char} (h : ¬∃ c r, cs = '.' :: c :: r ∧ c.isDigit) :
    fracPart cs = (none, cs) := by
  unfold fracPart
  split
  · rename_i c r
    split_ifs with digit
    · exact absurd ⟨c, r, rfl, digit⟩ h
    · rfl
  · rfl

theorem fracPart_append {cs : List Char} (nonempty : (fracPart cs).2 ≠ [])
    (noDot : ∀ c ∈ (fracPart cs).2.head?, c ≠ '.') (t : List Char) :
    fracPart (cs ++ t) = ((fracPart cs).1, (fracPart cs).2 ++ t) := by
  by_cases frac : ∃ c r, cs = '.' :: c :: r ∧ c.isDigit
  · obtain ⟨c, r, rfl, digit⟩ := frac
    simp only [List.cons_append, fracPart, digit, if_true] at nonempty ⊢
    obtain ⟨take, drop⟩ := takeWhile_dropWhile_append nonempty t
    rw [take, drop]
  · rw [fracPart_of_not_frac frac] at noDot ⊢
    have extended : ¬∃ c r, cs ++ t = '.' :: c :: r ∧ c.isDigit := by
      rintro ⟨c, r, split, -⟩
      cases cs with
      | nil => exact nonempty rfl
      | cons a cs =>
        obtain ⟨rfl, -⟩ := List.cons.inj split
        exact noDot '.' rfl rfl
    rw [fracPart_of_not_frac extended]

theorem expSign_append {cs : List Char} (h : cs ≠ []) (t : List Char) :
    expSign (cs ++ t) = ((expSign cs).1, (expSign cs).2 ++ t) := by
  match cs, h with
  | s :: r, _ =>
    simp only [List.cons_append, expSign]
    split_ifs <;> rfl

theorem expPart_append {cs : List Char} (nonempty : (expPart cs).2 ≠ [])
    (noLetter : ∀ c ∈ (expPart cs).2.head?, c ≠ 'e' ∧ c ≠ 'E') (t : List Char) :
    expPart (cs ++ t) = ((expPart cs).1, (expPart cs).2 ++ t) := by
  match cs with
  | [] => exact absurd rfl nonempty
  | e :: r =>
    simp only [List.cons_append, expPart] at nonempty noLetter ⊢
    by_cases exp : (e = 'e' ∨ e = 'E') ∧ (expSign r).2.takeWhile Char.isDigit ≠ []
    · have signed : r ≠ [] := by
        rintro rfl
        simp [expSign] at exp
      rw [if_pos exp] at nonempty ⊢
      obtain ⟨take, drop⟩ := takeWhile_dropWhile_append nonempty t
      rw [expSign_append signed, take, drop, if_pos exp]
    · rw [if_neg exp] at noLetter ⊢
      have letter := noLetter e rfl
      rw [if_neg (by tauto)]
      rfl

theorem expPart_rest (cs : List Char) :
    (expPart cs).2 = cs ∨ ∃ e r, cs = e :: r ∧ (e = 'e' ∨ e = 'E') := by
  unfold expPart
  split
  · split_ifs with exp
    · exact .inr ⟨_, _, rfl, exp.1⟩
    · exact .inl rfl
  · exact .inl rfl

theorem matchNumber_append {cs r : List Char} {n : NumberText} (h : matchNumber cs = some (n, r))
    (nonempty : r ≠ []) (stop : ∀ c ∈ r.head?, c ≠ '.' ∧ c ≠ 'e' ∧ c ≠ 'E') (t : List Char) :
    matchNumber (cs ++ t) = some (n, r ++ t) := by
  unfold matchNumber at h ⊢
  split at h
  · cases h
  · rename_i ds r₁ hint
    obtain ⟨rfl, rfl⟩ := Prod.mk.inj (Option.some.inj h)
    have fracNonempty : (fracPart r₁).2 ≠ [] := fun empty => by
      simp [empty, expPart] at nonempty
    have intNonempty : r₁ ≠ [] := fun empty => by
      simp [empty, fracPart] at fracNonempty
    have signed : cs ≠ [] := fun empty => by
      simp [empty, numberSign, intPart] at hint
    have noDot : ∀ c ∈ (fracPart r₁).2.head?, c ≠ '.' := by
      rcases expPart_rest (fracPart r₁).2 with same | ⟨e, r₂, split, letter⟩
      · rw [← same]
        exact fun c hc => (stop c hc).1
      · rw [split]
        rintro c ⟨⟩
        rcases letter with rfl | rfl <;> decide
    simp only [numberSign_append signed, intPart_append hint intNonempty,
      fracPart_append fracNonempty noDot, expPart_append nonempty fun c hc => (stop c hc).2]

/-! ## Values -/

theorem scanOnce_number {n : NumberText} (valid : n.Valid) (fuel limit : Nat) (r : List Char) :
    scanOnce (fuel + 1) limit (n.text ++ r) =
      (matchNumber (n.text ++ r)).elim (.error (.decode ⟨"Expecting value", (n.text ++ r).length⟩))
        fun read => if read.1.overLimit then .error (.valueError read.1.intDigits.length)
          else .ok (read.1.value, read.2) := by
  obtain ⟨c, rest, htext, sign⟩ := NumberText.text_head valid
  have constant := scanConstant_number valid r
  have open_ : c ≠ '"' ∧ c ≠ '{' ∧ c ≠ '[' := by
    rcases sign with rfl | digit
    · decide
    · exact ⟨ne_of_isDigit digit rfl, ne_of_isDigit digit rfl, ne_of_isDigit digit rfl⟩
  rw [htext, List.cons_append] at constant ⊢
  simp only [scanOnce, open_, constant, if_false, List.length_cons]
  cases matchNumber (c :: (rest ++ r)) with
  | none => rfl
  | some read => rfl

theorem matchNumber_zero {c : Char} (digit : c.isDigit) (rest : List Char) :
    matchNumber ('0' :: c :: rest) = some (⟨false, ['0'], none, none⟩, c :: rest) := by
  have dot : c ≠ '.' := ne_of_isDigit digit rfl
  have letter : ¬(c = 'e' ∨ c = 'E') := by
    rintro (rfl | rfl) <;> cases digit
  have frac : fracPart (c :: rest) = (none, c :: rest) := fracPart_of_not_frac (by simp [dot])
  have exp : expPart (c :: rest) = (none, c :: rest) := by simp [expPart, letter]
  simp [matchNumber, numberSign, intPart, frac, exp]

theorem rawDecode_zero {c : Char} (digit : c.isDigit) (limit : Nat) (rest : List Char) :
    rawDecode limit ('0' :: c :: rest) 0 = .ok (.int 0, 1) := by
  simp only [rawDecode, Nat.not_lt_zero, List.drop_zero, List.length_cons, scanOnce, Char.reduceEq,
    reduceIte, scanConstant_digit (show '0'.isDigit from rfl), matchNumber_zero digit]
  simp [NumberText.overLimit, intMaxStrDigits, NumberText.value, digitsValue]

theorem Within.numeral {limit : Nat} {t : List Char} {v : PyValue} (h : Within limit t v)
    (number : isNumeral v) :
    ∃ n : NumberText, n.Valid ∧ n.overLimit = false ∧ t = n.text ∧ v = n.value := by
  cases h with
  | number n valid over => exact ⟨n, valid, over, rfl, rfl⟩
  | constant member =>
    simp only [constants, List.mem_cons, Prod.mk.injEq, List.mem_singleton, List.not_mem_nil,
      or_false] at member
    rcases member with ⟨-, rfl⟩ | ⟨-, rfl⟩ | ⟨-, rfl⟩ | ⟨-, rfl⟩ | ⟨-, rfl⟩ | ⟨-, rfl⟩ <;>
      cases number
  | string | emptyArray | array | emptyObject | object => cases number

/-! ## `raw_decode` -/

def RawDecodeError.shift (p : List Char) : RawDecodeError → RawDecodeError
  | .jsonDecodeError e => .jsonDecodeError ⟨e.msg, p ++ e.doc, p.length + e.pos⟩
  | e => e

theorem ScanError.raise_append {p s : List Char} {e : ScanError} (placed : PlacedIn s.length e) :
    e.raise (p ++ s) = (e.raise s).shift p := by
  cases e with
  | decode d =>
    simp only [PlacedIn] at placed
    simp only [ScanError.raise, RawDecodeError.shift, List.length_append,
      RawDecodeError.jsonDecodeError.injEq, JSONDecodeError.mk.injEq, true_and]
    omega
  | _ => rfl

theorem rawDecode_shift (limit : Nat) (p s : List Char) (idx : Nat) :
    rawDecode limit (p ++ s) (p.length + idx) =
      ((rawDecode limit s idx).map fun read => (read.1, p.length + read.2)).mapError
        (RawDecodeError.shift p) := by
  by_cases past : s.length < idx
  · rw [rawDecode, rawDecode, if_pos (by simpa using past), if_pos past]
    rfl
  rw [rawDecode, rawDecode, if_neg (by simpa using past), if_neg past, List.drop_append]
  split
  · rename_i v rest h
    obtain ⟨t, split, -⟩ := scanOnce_sound h
    have len := congrArg List.length split
    simp only [List.length_drop, List.length_append] at len
    simp only [h, Except.map, Except.mapError, List.length_append, Except.ok.injEq,
      Prod.mk.injEq, true_and]
    omega
  · rename_i e h
    have placed := (scan_placed _).1 (by omega) h
    simp only [List.length_drop] at placed
    simp only [h, Except.map, Except.mapError, Except.error.injEq]
    exact ScanError.raise_append (placed.mono (Nat.sub_le _ _))

theorem rawDecode_matchNumber {limit : Nat} {s : List Char} {idx j : Nat} {v : PyValue}
    (h : rawDecode limit s idx = .ok (v, j)) (number : isNumeral v) :
    ∃ m : NumberText, matchNumber (s.drop idx) = some (m, s.drop j) ∧ m.overLimit = false ∧
      m.value = v := by
  obtain ⟨t, hdrop, ht, -, le⟩ := rawDecode_sound h
  obtain ⟨n, valid, -, rfl, rfl⟩ := ht.numeral number
  unfold rawDecode at h
  split at h
  · cases h
  rw [hdrop, scanOnce_number valid] at h
  cases hm : matchNumber (n.text ++ s.drop j) with
  | none => simp [hm] at h
  | some read =>
    obtain ⟨m, r⟩ := read
    cases over : m.overLimit with
    | true => simp [hm, over] at h
    | false =>
      simp only [hm, Option.elim, over, Bool.false_eq_true, ↓reduceIte, Except.ok.injEq,
        Prod.mk.injEq] at h
      have rest : r.length = (s.drop j).length := by
        have read := congrArg List.length (matchNumber_sound hm).1
        have len := congrArg List.length hdrop
        simp only [List.length_append, List.length_drop] at read len h ⊢
        omega
      obtain ⟨-, rfl⟩ := List.append_inj' (matchNumber_sound hm).1.symm rest
      rw [hdrop]
      exact ⟨m, hm, over, h.1⟩

/-- A value `raw_decode` reads is read the same once text is appended, unless it is a number the
appended text carries on. -/
theorem rawDecode_append {limit : Nat} {s : List Char} {idx j : Nat} {v : PyValue}
    (h : rawDecode limit s idx = .ok (v, j)) (tail : List Char)
    (ends : isNumeral v → NumberEnds (s.drop j) tail) :
    rawDecode limit (s ++ tail) idx = .ok (v, j) := by
  obtain ⟨t, hdrop, ht, lt, le⟩ := rawDecode_sound h
  have len := congrArg List.length hdrop
  simp only [List.length_drop, List.length_append] at len
  cases number : isNumeral v
  · have split : s ++ tail = s.take idx ++ t ++ (s.drop j ++ tail) := by
      rw [← List.append_assoc, List.append_assoc _ t, ← hdrop, List.take_append_drop]
    have read := rawDecode_complete ht (s.take idx) (s.drop j ++ tail) (by simp [number])
    rwa [← split, List.length_take, min_eq_left (by omega), show idx + t.length = j by omega]
      at read
  · obtain ⟨empty, noLetter⟩ := ends number
    obtain ⟨n, valid, over, rfl, rfl⟩ := ht.numeral number
    have matched : ∃ m : NumberText,
        matchNumber (n.text ++ (s.drop j ++ tail)) = some (m, s.drop j ++ tail) ∧
          m.overLimit = false ∧ m.value = n.value := by
      by_cases nil : s.drop j = []
      · rw [nil]
        exact ⟨n, matchNumber_complete valid (empty nil), over, rfl⟩
      · obtain ⟨m, hm, over', value⟩ := rawDecode_matchNumber h number
        rw [hdrop] at hm
        rw [← List.append_assoc]
        exact ⟨m, matchNumber_append hm nil noLetter tail, over', value⟩
    obtain ⟨m, hm, over', value⟩ := matched
    unfold rawDecode
    rw [if_neg (by simp; omega), List.drop_append_of_le_length (by omega), hdrop, List.append_assoc,
      scanOnce_number valid, hm]
    simp only [Option.elim, over', value, Bool.false_eq_true, if_false, List.length_append,
      List.length_drop, Except.ok.injEq, Prod.mk.injEq, true_and]
    omega

end GenDepsMd.Json
