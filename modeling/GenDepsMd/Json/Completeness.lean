import GenDepsMd.Json.Soundness

namespace GenDepsMd.Json

def ReadsBack (limit : Nat) (t : List Char) (v : PyValue) : Prop :=
  ∀ (fuel : Nat) (r : List Char), (isNumeral v → NumStop r) → 2 * (t ++ r).length < fuel →
    scanOnce fuel limit (t ++ r) = .ok (v, r)

theorem skipWhitespace_text {w t : List Char} {v : PyValue} (ws : IsWs w) (h : Text t v)
    (r : List Char) : skipWhitespace (w ++ (t ++ r)) = t ++ r := by
  obtain ⟨c, rest, rfl, start, -⟩ := h.head
  rw [skipWhitespace_append ws, List.cons_append, skipWhitespace_cons start.not_whitespace]

theorem skipWhitespace_delim {w : List Char} (ws : IsWs w) (c : Char)
    (delim : isWhitespace c = false) (r : List Char) : skipWhitespace (w ++ c :: r) = c :: r := by
  rw [skipWhitespace_append ws, skipWhitespace_cons delim]

theorem Element.padded_append (e : Element) (r : List Char) :
    e.padded ++ r = e.before ++ (e.text ++ (e.after ++ r)) := by
  simp [Element.padded]

theorem arrayItems_complete {limit : Nat} {e : Element} {es : List Element}
    (spaces : ∀ x ∈ e :: es, IsWs x.before ∧ IsWs x.after)
    (values : ∀ x ∈ e :: es, Text x.text x.value)
    (texts : ∀ x ∈ e :: es, ReadsBack limit x.text x.value) (items : List PyValue) (r : List Char)
    (fuel : Nat)
    (bound : 2 * (e.text ++ e.after ++ es.flatMap (fun x => ',' :: x.padded) ++ ']' :: r).length + 1 <
      fuel) :
    arrayItems fuel limit (e.text ++ e.after ++ es.flatMap (fun x => ',' :: x.padded) ++ ']' :: r)
      items =
      .ok (.list (items ++ (e :: es).map Element.value), r) := by
  obtain ⟨fuel, rfl⟩ : ∃ f, fuel = f + 1 := ⟨fuel - 1, by omega⟩
  have after := (spaces e (.head _)).2
  induction es generalizing e items fuel with
  | nil =>
    have read := texts e (.head _) fuel (e.after ++ ']' :: r)
      (fun _ => numStop_of_ws after (by simp)) (by simp at bound ⊢; omega)
    simp only [List.flatMap_nil, List.append_nil, List.append_assoc] at read ⊢
    simp [arrayItems, read, skipWhitespace_delim after ']' rfl]
  | cons e' es ih =>
    have before' := (spaces e' (by simp)).1
    have read := texts e (.head _) fuel
      (e.after ++ ',' :: (e'.padded ++ es.flatMap (fun x => ',' :: x.padded) ++ ']' :: r))
      (fun _ => numStop_of_ws after (by simp)) (by simp at bound ⊢; omega)
    obtain ⟨fuel, rfl⟩ : ∃ f, fuel = f + 1 := ⟨fuel - 1, by simp [Element.padded] at bound; omega⟩
    have rest := ih (fun x hx => spaces x (.tail e hx)) (fun x hx => values x (.tail e hx))
      (fun x hx => texts x (.tail e hx)) (items ++ [e.value]) fuel
      (by simp [Element.padded] at bound ⊢; omega) (spaces e' (by simp)).2
    simp only [List.flatMap_cons, List.append_assoc, List.cons_append, Element.padded_append]
      at read rest ⊢
    rw [arrayItems, read]
    simp only [skipWhitespace_delim after ',' rfl]
    rw [skipWhitespace_text before' (values e' (by simp)), rest]
    simp

theorem Member.text_append (m : Member) (r : List Char) :
    m.text ++ r = m.before ++ '"' :: (m.keyBody ++ '"' :: (m.beforeColon ++ ':' ::
      (m.element.before ++ (m.element.text ++ (m.element.after ++ r))))) := by
  simp [Member.text, Element.padded]

theorem objectItems_complete {limit : Nat} {m : Member} {ms : List Member}
    (fields : ∀ x ∈ m :: ms, IsWs x.before ∧ StringBody x.keyBody x.key ∧ IsWs x.beforeColon ∧
      IsWs x.element.before ∧ IsWs x.element.after)
    (values : ∀ x ∈ m :: ms, Text x.element.text x.element.value)
    (texts : ∀ x ∈ m :: ms, ReadsBack limit x.element.text x.element.value)
    (entries : List (PyStr × PyValue)) (r : List Char) (fuel : Nat)
    (bound : 2 * (m.text ++ ms.flatMap (fun x => ',' :: x.text) ++ '}' :: r).length + 1 < fuel) :
    objectItems fuel limit
      (skipWhitespace (m.text ++ ms.flatMap (fun x => ',' :: x.text) ++ '}' :: r)) entries = .ok (.dict (setItems entries ((m :: ms).map Member.pair)), r) := by
  obtain ⟨fuel, rfl⟩ : ∃ f, fuel = f + 1 := ⟨fuel - 1, by omega⟩
  obtain ⟨before, key, colon, elBefore, elAfter⟩ := fields m (.head _)
  induction ms generalizing m entries fuel with
  | nil =>
    have read := texts m (.head _) fuel (m.element.after ++ '}' :: r)
      (fun _ => numStop_of_ws elAfter (by simp))
      (by simp [Member.text, Element.padded] at bound ⊢; omega)
    simp only [List.flatMap_nil, List.append_nil, Member.text_append] at bound ⊢
    rw [skipWhitespace_delim before '"' rfl, objectItems,
      scanstring_complete key _ _ _ (by simp at bound; omega)]
    simp only [List.reverse_nil, List.nil_append, skipWhitespace_delim colon ':' rfl]
    rw [skipWhitespace_text elBefore (values m (.head _)), read]
    simp [skipWhitespace_delim elAfter '}' rfl, setItems, Member.pair]
  | cons m' ms ih =>
    have read := texts m (.head _) fuel
      (m.element.after ++ ',' :: (m'.text ++ ms.flatMap (fun x => ',' :: x.text) ++ '}' :: r))
      (fun _ => numStop_of_ws elAfter (by simp))
      (by simp [Member.text, Element.padded] at bound ⊢; omega)
    obtain ⟨fuel, rfl⟩ : ∃ f, fuel = f + 1 :=
      ⟨fuel - 1, by simp [Member.text, Element.padded] at bound; omega⟩
    obtain ⟨before', key', colon', elBefore', elAfter'⟩ := fields m' (by simp)
    have rest := ih (fun x hx => fields x (.tail m hx)) (fun x hx => values x (.tail m hx))
      (fun x hx => texts x (.tail m hx)) (dictSetItem entries m.key m.element.value) fuel
      (by simp [Member.text, Element.padded] at bound ⊢; omega)
      before' key' colon' elBefore' elAfter'
    simp only [List.flatMap_cons, List.append_assoc, List.cons_append, Member.text_append]
      at bound read rest ⊢
    rw [skipWhitespace_delim before '"' rfl, objectItems,
      scanstring_complete key _ _ _ (by simp at bound; omega)]
    simp only [List.reverse_nil, List.nil_append, skipWhitespace_delim colon ':' rfl]
    rw [skipWhitespace_text elBefore (values m (.head _)), read]
    simp only [skipWhitespace_delim elAfter ',' rfl]
    rw [rest]
    simp [setItems, Member.pair]

theorem constants_head {t : List Char} {v : PyValue} (member : (t, v) ∈ constants) :
    ∃ c rest, t = c :: rest ∧ c ≠ '"' ∧ c ≠ '{' ∧ c ≠ '[' := by
  simp only [constants, List.mem_cons, Prod.mk.injEq, List.mem_singleton, List.not_mem_nil,
    or_false] at member
  rcases member with ⟨rfl, -⟩ | ⟨rfl, -⟩ | ⟨rfl, -⟩ | ⟨rfl, -⟩ | ⟨rfl, -⟩ | ⟨rfl, -⟩ <;>
    exact ⟨_, _, rfl, by decide⟩

theorem Within.readsBack {limit : Nat} {t : List Char} {v : PyValue} (h : Within limit t v) :
    ReadsBack limit t v := by
  induction h with
  | constant member =>
    intro fuel r _ bound
    obtain ⟨fuel, rfl⟩ : ∃ f, fuel = f + 1 := ⟨fuel - 1, by omega⟩
    obtain ⟨c, rest, htext, open_⟩ := constants_head member
    have read := scanConstant_complete member r
    rw [htext, List.cons_append] at read ⊢
    simp [scanOnce, open_, read]
  | number n valid over =>
    intro fuel r stop bound
    obtain ⟨fuel, rfl⟩ : ∃ f, fuel = f + 1 := ⟨fuel - 1, by omega⟩
    obtain ⟨c, rest, htext, sign⟩ := NumberText.text_head valid
    have constant := scanConstant_number valid r
    have number := matchNumber_complete valid (stop (NumberText.value_isNumeral n))
    have open_ : c ≠ '"' ∧ c ≠ '{' ∧ c ≠ '[' := by
      rcases sign with rfl | digit
      · decide
      · exact ⟨ne_of_isDigit digit rfl, ne_of_isDigit digit rfl, ne_of_isDigit digit rfl⟩
    rw [htext, List.cons_append] at constant number ⊢
    simp [scanOnce, open_, constant, number, over]
  | @string _ b s hb =>
    intro fuel r _ bound
    obtain ⟨fuel, rfl⟩ : ∃ f, fuel = f + 1 := ⟨fuel - 1, by omega⟩
    simp only [List.cons_append, List.append_assoc, List.singleton_append, List.nil_append,
      scanOnce, reduceIte]
    rw [scanstring_complete hb _ r [] (show b.length < fuel by simp at bound; omega)]
    simp
  | emptyArray ws =>
    intro fuel r _ bound
    obtain ⟨fuel, rfl⟩ : ∃ f, fuel = f + 1 := ⟨fuel - 1, by omega⟩
    simp [scanOnce, skipWhitespace_delim ws ']' rfl]
  | array e es spaces values ih =>
    intro fuel r _ bound
    obtain ⟨fuel, rfl⟩ : ∃ f, fuel = f + 1 := ⟨fuel - 1, by omega⟩
    replace values := fun x hx => (values x hx).text
    obtain ⟨c, rest, htext, start, -⟩ := (values e (.head _)).head
    have items := arrayItems_complete spaces values ih [] r fuel
      (by simp [Element.padded] at bound ⊢; omega)
    simp only [List.cons_append, List.append_assoc, Element.padded_append, List.singleton_append,
      List.nil_append, scanOnce, Char.reduceEq, reduceIte, Nat.add_one_ne_zero,
      Nat.add_one_sub_one] at items ⊢
    rw [skipWhitespace_text (spaces e (.head _)).1 (values e (.head _))]
    rw [htext, List.cons_append] at items ⊢
    split
    · exact absurd (List.cons.inj ‹_›).1 start.ne_close.1
    · simpa using items
  | emptyObject ws =>
    intro fuel r _ bound
    obtain ⟨fuel, rfl⟩ : ∃ f, fuel = f + 1 := ⟨fuel - 1, by omega⟩
    simp [scanOnce, skipWhitespace_delim ws '}' rfl]
  | object m ms fields values ih =>
    intro fuel r _ bound
    obtain ⟨fuel, rfl⟩ : ∃ f, fuel = f + 1 := ⟨fuel - 1, by omega⟩
    have members := objectItems_complete fields (fun x hx => (values x hx).text) ih [] r fuel
      (by simp [Member.text, Element.padded] at bound ⊢; omega)
    have quote := skipWhitespace_delim (fields m (.head _)).1 '"' rfl
    simp only [List.cons_append, List.append_assoc, Member.text_append, List.singleton_append,
      List.nil_append, scanOnce, Char.reduceEq, reduceIte, Nat.add_one_ne_zero,
      Nat.add_one_sub_one, quote] at members ⊢
    simpa [setItems, dictOf] using members

/-- `raw_decode` at the start of a value text returns its value and the index right after it. -/
theorem rawDecode_complete {limit : Nat} {t : List Char} {v : PyValue} (h : Within limit t v)
    (p r : List Char) (stop : isNumeral v → NumStop r) :
    rawDecode limit (p ++ t ++ r) p.length = .ok (v, p.length + t.length) := by
  unfold rawDecode
  rw [if_neg (by simp), List.append_assoc, List.drop_left, h.readsBack _ r stop (by omega)]
  simp only [List.length_append, Except.ok.injEq, Prod.mk.injEq, true_and]
  omega

theorem Text.numStop {t : List Char} {v : PyValue} (h : Text t v) (notNumber : isNumeral v = false)
    (r : List Char) : NumStop (t ++ r) := by
  obtain ⟨c, rest, rfl, start, digit⟩ := h.head
  intro d hd
  obtain rfl : c = d := by simpa using hd
  refine ⟨digit notNumber, ?_⟩
  rcases start with rfl | rfl | rfl | rfl | rfl | rfl | rfl | rfl | rfl | isDigit
  any_goals decide
  exact ⟨ne_of_isDigit isDigit rfl, ne_of_isDigit isDigit rfl, ne_of_isDigit isDigit rfl⟩

theorem numStop_gap {w r : List Char} (ws : IsWs w) (stop : w = [] → NumStop r) :
    NumStop (w ++ r) := by
  cases w with
  | nil => exact stop rfl
  | cons c w =>
    have := ws c (.head _)
    simp only [isWhitespace, Bool.or_eq_true, beq_iff_eq] at this
    intro d hd
    obtain rfl : c = d := by simpa using hd
    rcases this with ((rfl | rfl) | rfl) | rfl <;> decide

end GenDepsMd.Json
