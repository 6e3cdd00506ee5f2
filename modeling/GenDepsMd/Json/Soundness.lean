import GenDepsMd.Json.Leaves

namespace GenDepsMd.Json

/-! ## First characters -/

def ValueStart (c : Char) : Prop :=
  c = '"' ∨ c = '[' ∨ c = '{' ∨ c = 'n' ∨ c = 't' ∨ c = 'f' ∨ c = 'N' ∨ c = 'I' ∨ c = '-' ∨
    c.isDigit

theorem ne_of_isDigit {c x : Char} (digit : c.isDigit) (hx : x.isDigit = false) : c ≠ x := by
  rintro rfl
  simp [hx] at digit

theorem ValueStart.not_whitespace {c : Char} (h : ValueStart c) : isWhitespace c = false := by
  rcases h with rfl | rfl | rfl | rfl | rfl | rfl | rfl | rfl | rfl | digit
  any_goals rfl
  simp [isWhitespace, ne_of_isDigit digit (x := ' ') rfl, ne_of_isDigit digit (x := '\t') rfl,
    ne_of_isDigit digit (x := '\n') rfl, ne_of_isDigit digit (x := '\r') rfl]

theorem ValueStart.not_isspace {c : Char} (h : ValueStart c) : isspace c = false := by
  rcases h with rfl | rfl | rfl | rfl | rfl | rfl | rfl | rfl | rfl | digit
  any_goals rfl
  have := (isDigit_iff c).mp digit
  simp only [isspace, Bool.or_eq_false_iff, Bool.and_eq_false_iff, decide_eq_false_iff_not,
    beq_eq_false_iff_ne]
  omega

theorem ValueStart.ne_close {c : Char} (h : ValueStart c) : c ≠ ']' ∧ c ≠ '}' := by
  rcases h with rfl | rfl | rfl | rfl | rfl | rfl | rfl | rfl | rfl | digit
  any_goals decide
  exact ⟨ne_of_isDigit digit rfl, ne_of_isDigit digit rfl⟩

theorem NumberText.text_head {n : NumberText} (valid : n.Valid) :
    ∃ c rest, n.text = c :: rest ∧ (c = '-' ∨ c.isDigit) := by
  obtain ⟨d, rest, hds, digit⟩ := valid.int_digits.head
  cases hn : n.negative
  · exact ⟨d, rest ++ (fracText n.fracDigits ++ expText n.exponent),
      by simp [NumberText.text, hn, hds], .inr digit⟩
  · exact ⟨'-', n.intDigits ++ (fracText n.fracDigits ++ expText n.exponent),
      by simp [NumberText.text, hn], .inl rfl⟩

theorem NumberText.value_isNumeral (n : NumberText) : isNumeral n.value := by
  unfold NumberText.value
  split <;> rfl

theorem Text.head {t : List Char} {v : PyValue} (h : Text t v) :
    ∃ c rest, t = c :: rest ∧ ValueStart c ∧ (isNumeral v = false → c.isDigit = false) := by
  cases h with
  | constant member =>
    simp only [constants, List.mem_cons, Prod.mk.injEq, List.mem_singleton, List.not_mem_nil,
      or_false] at member
    rcases member with ⟨rfl, rfl⟩ | ⟨rfl, rfl⟩ | ⟨rfl, rfl⟩ | ⟨rfl, rfl⟩ | ⟨rfl, rfl⟩ |
      ⟨rfl, rfl⟩ <;> exact ⟨_, _, rfl, by simp [ValueStart], fun _ => rfl⟩
  | number n valid =>
    obtain ⟨c, rest, htext, sign⟩ := NumberText.text_head valid
    refine ⟨c, rest, htext, ?_,
      fun notNumber => absurd (NumberText.value_isNumeral n) (by simp [notNumber])⟩
    rcases sign with rfl | digit
    · simp [ValueStart]
    · simp [ValueStart, digit]
  | string => exact ⟨_, _, rfl, by simp [ValueStart], fun _ => rfl⟩
  | emptyArray => exact ⟨_, _, rfl, by simp [ValueStart], fun _ => rfl⟩
  | array => exact ⟨_, _, rfl, by simp [ValueStart], fun _ => rfl⟩
  | emptyObject => exact ⟨_, _, rfl, by simp [ValueStart], fun _ => rfl⟩
  | object => exact ⟨_, _, rfl, by simp [ValueStart], fun _ => rfl⟩

theorem Text.length_pos {t : List Char} {v : PyValue} (h : Text t v) : 0 < t.length := by
  obtain ⟨c, rest, rfl, -⟩ := h.head
  simp

theorem Within.length_pos {limit : Nat} {t : List Char} {v : PyValue} (h : Within limit t v) :
    0 < t.length :=
  h.text.length_pos

/-! ## Values -/

def ArrayRead (limit : Nat) (cs : List Char) (items : List PyValue) (v : PyValue) (r : List Char) :
    Prop :=
  ∃ (e : Element) (es : List Element), (∀ x ∈ e :: es, IsWs x.before ∧ IsWs x.after) ∧
    (∀ x ∈ e :: es, Within limit x.text x.value) ∧ e.before = [] ∧
    cs = e.padded ++ es.flatMap (fun x => ',' :: x.padded) ++ ']' :: r ∧
    v = .list (items ++ (e :: es).map Element.value)

def setItems (entries : List (PyStr × PyValue)) (pairs : List (PyStr × PyValue)) :
    List (PyStr × PyValue) :=
  pairs.foldl (fun d kv => dictSetItem d kv.1 kv.2) entries

def ObjectRead (limit : Nat) (cs : List Char) (entries : List (PyStr × PyValue)) (v : PyValue)
    (r : List Char) : Prop :=
  ∃ (m : Member) (ms : List Member), (∀ x ∈ m :: ms, IsWs x.before ∧
      StringBody x.keyBody x.key ∧ IsWs x.beforeColon ∧ IsWs x.element.before ∧
      IsWs x.element.after) ∧
    (∀ x ∈ m :: ms, Within limit x.element.text x.element.value) ∧ m.before = [] ∧
    cs = m.text ++ ms.flatMap (fun x => ',' :: x.text) ++ '}' :: r ∧
    v = .dict (setItems entries ((m :: ms).map Member.pair))

theorem isWs_nil : IsWs [] := fun _ h => nomatch h

section
variable {fuel : Nat}

theorem scanOnce_sound_succ
    (array : ∀ {limit cs items v r}, arrayItems fuel limit cs items = .ok (v, r) →
      ArrayRead limit cs items v r)
    (object : ∀ {limit cs entries v r}, objectItems fuel limit cs entries = .ok (v, r) →
      ObjectRead limit cs entries v r)
    {limit : Nat} {cs : List Char} {v : PyValue} {r : List Char}
    (h : scanOnce (fuel + 1) limit cs = .ok (v, r)) :
    ∃ t, cs = t ++ r ∧ Within limit t v := by
  match cs with
  | [] => cases h
  | c :: rest =>
    have split := skipWhitespace_split rest
    by_cases quote : c = '"'
    · subst quote
      simp only [scanOnce, if_true] at h
      split at h
      · rename_i s r' hs
        obtain ⟨rfl, rfl⟩ := Prod.mk.inj (Except.ok.inj h)
        obtain ⟨b, body, rfl, hb, rfl⟩ := scanstring_sound hs
        exact ⟨'"' :: b ++ ['"'], by simp, by simpa using Within.string hb⟩
      · cases h
    by_cases brace : c = '{'
    · subst brace
      simp only [scanOnce, show '{' ≠ '"' by decide, if_false, if_true] at h
      split at h
      · cases h
      obtain ⟨limit, rfl⟩ : ∃ l, limit = l + 1 := ⟨limit - 1, by omega⟩
      rw [Nat.add_one_sub_one] at h
      split at h
      · rename_i r' hr
        obtain ⟨rfl, rfl⟩ := Prod.mk.inj (Except.ok.inj h)
        rw [hr] at split
        exact ⟨'{' :: rest.takeWhile isWhitespace ++ ['}'], by simp [← split.2],
          .emptyObject split.1⟩
      · obtain ⟨m, ms, members, texts, first, hcs, rfl⟩ := object h
        let m' : Member := { m with before := rest.takeWhile isWhitespace }
        refine ⟨'{' :: m'.text ++ ms.flatMap (fun x => ',' :: x.text) ++ ['}'], ?_, ?_⟩
        · conv_lhs => rw [split.2, hcs]
          simp [m', Member.text, first]
        · simpa [setItems, dictOf, Member.pair, m'] using Within.object m' ms
            (List.forall_mem_cons.2
              ⟨⟨split.1, (members m (.head _)).2⟩, fun x hx => members x (.tail _ hx)⟩)
            (List.forall_mem_cons.2 ⟨texts m (.head _), fun x hx => texts x (.tail _ hx)⟩)
    by_cases bracket : c = '['
    · subst bracket
      simp only [scanOnce, show '[' ≠ '"' by decide, show '[' ≠ '{' by decide, if_false,
        if_true] at h
      split at h
      · cases h
      obtain ⟨limit, rfl⟩ : ∃ l, limit = l + 1 := ⟨limit - 1, by omega⟩
      rw [Nat.add_one_sub_one] at h
      split at h
      · rename_i r' hr
        obtain ⟨rfl, rfl⟩ := Prod.mk.inj (Except.ok.inj h)
        rw [hr] at split
        exact ⟨'[' :: rest.takeWhile isWhitespace ++ [']'], by simp [← split.2],
          .emptyArray split.1⟩
      · obtain ⟨e, es, spaces, texts, first, hcs, rfl⟩ := array h
        let e' : Element := { e with before := rest.takeWhile isWhitespace }
        refine ⟨'[' :: e'.padded ++ es.flatMap (fun x => ',' :: x.padded) ++ [']'], ?_, ?_⟩
        · conv_lhs => rw [split.2, hcs]
          simp [e', Element.padded, first]
        · simpa [e'] using Within.array e' es
            (List.forall_mem_cons.2
              ⟨⟨split.1, (spaces e (.head _)).2⟩, fun x hx => spaces x (.tail _ hx)⟩)
            (List.forall_mem_cons.2 ⟨texts e (.head _), fun x hx => texts x (.tail _ hx)⟩)
    simp only [scanOnce, quote, brace, bracket, if_false] at h
    split at h
    · rename_i found
      simp only [Except.ok.injEq] at h
      subst h
      obtain ⟨t, member, hcs⟩ := scanConstant_sound found
      exact ⟨t, hcs, .constant member⟩
    · split at h
      · rename_i n r' hn
        split at h
        · cases h
        rename_i over
        obtain ⟨rfl, rfl⟩ := Prod.mk.inj (Except.ok.inj h)
        obtain ⟨hcs, valid⟩ := matchNumber_sound hn
        exact ⟨n.text, hcs, .number n valid (by simpa using over)⟩
      · cases h

theorem arrayItems_sound_succ
    (value : ∀ {limit cs v r}, scanOnce fuel limit cs = .ok (v, r) → ∃ t, cs = t ++ r ∧ Within limit t v)
    (array : ∀ {limit cs items v r}, arrayItems fuel limit cs items = .ok (v, r) →
      ArrayRead limit cs items v r)
    {limit : Nat} {cs : List Char} {items : List PyValue} {v : PyValue} {r : List Char}
    (h : arrayItems (fuel + 1) limit cs items = .ok (v, r)) : ArrayRead limit cs items v r := by
  simp only [arrayItems] at h
  split at h
  · cases h
  · rename_i v₀ r₀ hv
    obtain ⟨t₀, rfl, ht⟩ := value hv
    have split := skipWhitespace_split r₀
    let e₀ : Element := ⟨[], t₀, v₀, r₀.takeWhile isWhitespace⟩
    split at h
    · rename_i r' hr
      obtain ⟨rfl, rfl⟩ := Prod.mk.inj (Except.ok.inj h)
      rw [hr] at split
      refine ⟨e₀, [], by simpa using ⟨isWs_nil, split.1⟩, by simpa using ht, rfl, ?_, by simp [e₀]⟩
      conv_lhs => rw [split.2]
      simp [e₀, Element.padded]
    · rename_i r' hr
      obtain ⟨e, es, spaces, texts, first, hcs, rfl⟩ := array h
      have split' := skipWhitespace_split r'
      rw [hr] at split
      let e' : Element := { e with before := r'.takeWhile isWhitespace }
      simp only [List.forall_mem_cons] at spaces texts
      refine ⟨e₀, e' :: es, ?_, ?_, rfl, ?_, by simp [e₀, e']⟩
      · simp only [List.forall_mem_cons]
        exact ⟨⟨isWs_nil, split.1⟩, ⟨split'.1, spaces.1.2⟩, spaces.2⟩
      · simp only [List.forall_mem_cons]
        exact ⟨ht, texts.1, texts.2⟩
      · conv_lhs => rw [split.2, split'.2, hcs]
        simp [e₀, e', Element.padded, first]
    · cases h

theorem objectItems_sound_succ
    (value : ∀ {limit cs v r}, scanOnce fuel limit cs = .ok (v, r) → ∃ t, cs = t ++ r ∧ Within limit t v)
    (object : ∀ {limit cs entries v r}, objectItems fuel limit cs entries = .ok (v, r) →
      ObjectRead limit cs entries v r)
    {limit : Nat} {cs : List Char} {entries : List (PyStr × PyValue)} {v : PyValue}
    {r : List Char} (h : objectItems (fuel + 1) limit cs entries = .ok (v, r)) :
    ObjectRead limit cs entries v r := by
  match cs with
  | [] => simp [objectItems] at h
  | c :: cs' =>
    by_cases quote : c = '"'
    swap
    · simp [objectItems, quote] at h
    subst quote
    simp only [objectItems] at h
    split at h
    · cases h
    · rename_i key r₁ hkey
      obtain ⟨b, body, rfl, hb, hbody⟩ := scanstring_sound hkey
      simp only [List.reverse_nil, List.nil_append] at hbody
      subst hbody
      have split₁ := skipWhitespace_split r₁
      split at h
      · rename_i r₂ hr₂
        rw [hr₂] at split₁
        have split₂ := skipWhitespace_split r₂
        split at h
        · cases h
        · rename_i v₀ r₃ hv
          obtain ⟨t₀, ht₀, htext⟩ := value hv
          have split₃ := skipWhitespace_split r₃
          let m : Member := ⟨[], b, key, r₁.takeWhile isWhitespace,
            ⟨r₂.takeWhile isWhitespace, t₀, v₀, r₃.takeWhile isWhitespace⟩⟩
          have mOk : IsWs m.before ∧ StringBody m.keyBody m.key ∧ IsWs m.beforeColon ∧
              IsWs m.element.before ∧ IsWs m.element.after :=
            ⟨isWs_nil, hb, split₁.1, split₂.1, split₃.1⟩
          split at h
          · rename_i rest hclose
            obtain ⟨rfl, rfl⟩ := Prod.mk.inj (Except.ok.inj h)
            rw [hclose] at split₃
            refine ⟨m, [], by simpa using mOk, by simpa using htext, rfl, ?_, by
              simp [setItems, m, Member.pair]⟩
            conv_lhs => rw [split₁.2, split₂.2, ht₀, split₃.2]
            simp [m, Member.text, Element.padded]
          · rename_i rest hcomma
            obtain ⟨m', ms, members, texts, first, hcs, rfl⟩ := object h
            rw [hcomma] at split₃
            have split₄ := skipWhitespace_split rest
            let m'' : Member := { m' with before := rest.takeWhile isWhitespace }
            simp only [List.forall_mem_cons] at members texts
            refine ⟨m, m'' :: ms, ?_, ?_, rfl, ?_, by simp [setItems, m, m'', Member.pair]⟩
            · simp only [List.forall_mem_cons]
              exact ⟨mOk, ⟨split₄.1, members.1.2⟩, members.2⟩
            · simp only [List.forall_mem_cons]
              exact ⟨htext, texts.1, texts.2⟩
            · conv_lhs => rw [split₁.2, split₂.2, ht₀, split₃.2, split₄.2, hcs]
              simp [m, m'', Member.text, Element.padded, first]
          · cases h
      · cases h

theorem scan_sound : ∀ fuel : Nat,
    (∀ {limit cs v r}, scanOnce fuel limit cs = .ok (v, r) → ∃ t, cs = t ++ r ∧ Within limit t v) ∧
    (∀ {limit cs items v r}, arrayItems fuel limit cs items = .ok (v, r) →
      ArrayRead limit cs items v r) ∧
    (∀ {limit cs entries v r}, objectItems fuel limit cs entries = .ok (v, r) →
      ObjectRead limit cs entries v r)
  | 0 => ⟨fun h => (by cases h), fun h => (by cases h), fun h => (by cases h)⟩
  | fuel + 1 =>
    have ⟨value, array, object⟩ := scan_sound fuel
    ⟨scanOnce_sound_succ array object, arrayItems_sound_succ value array,
      objectItems_sound_succ value object⟩

end

/-- What `scanOnce` reads is a value text standing for the value it returns, within the limits it
ran with. -/
theorem scanOnce_sound {fuel limit : Nat} {cs : List Char} {v : PyValue} {r : List Char}
    (h : scanOnce fuel limit cs = .ok (v, r)) : ∃ t, cs = t ++ r ∧ Within limit t v :=
  (scan_sound fuel).1 h

/-- A value `rawDecode` returns was read from a value text that starts at `idx` and ends where
the returned index points, past `idx` and within the string. -/
theorem rawDecode_sound {limit : Nat} {s : List Char} {idx : Nat} {v : PyValue} {j : Nat}
    (h : rawDecode limit s idx = .ok (v, j)) :
    ∃ t, s.drop idx = t ++ s.drop j ∧ Within limit t v ∧ idx < j ∧ j ≤ s.length := by
  unfold rawDecode at h
  split at h
  · cases h
  split at h
  · rename_i rest hscan
    obtain ⟨rfl, rfl⟩ := Prod.mk.inj (Except.ok.inj h)
    obtain ⟨t, hdrop, ht⟩ := scanOnce_sound hscan
    have len : s.length - idx = t.length + rest.length := by
      simpa using congrArg List.length hdrop
    have pos := ht.length_pos
    have hrest : s.drop (s.length - rest.length) = rest := by
      rw [show s.length - rest.length = idx + t.length by omega, ← List.drop_drop, hdrop,
        List.drop_left]
    exact ⟨t, by rw [hdrop, hrest], ht, by omega, by omega⟩
  · cases h

theorem Within.of_rawDecode {limit : Nat} {t : List Char} {v : PyValue}
    (h : rawDecode limit t 0 = .ok (v, t.length)) : Within limit t v := by
  obtain ⟨t', split, within, -⟩ := rawDecode_sound h
  rw [List.drop_zero, List.drop_length, List.append_nil] at split
  exact split ▸ within

end GenDepsMd.Json
