import GenDepsMd.Json.Grammar

namespace GenDepsMd.Json

theorem isDigit_iff (c : Char) : c.isDigit = true ↔ 48 ≤ c.toNat ∧ c.toNat ≤ 57 := by
  simp only [Char.isDigit, Bool.and_eq_true, decide_eq_true_eq, Char.le_def]
  rfl

/-! ## Whitespace -/

theorem skipWhitespace_append {w : List Char} (ws : IsWs w) (r : List Char) :
    skipWhitespace (w ++ r) = skipWhitespace r :=
  List.dropWhile_append_of_pos ws

theorem skipWhitespace_cons {c : Char} (h : isWhitespace c = false) (r : List Char) :
    skipWhitespace (c :: r) = c :: r :=
  List.dropWhile_cons_of_neg (by simp [h])

theorem skipWhitespace_split (cs : List Char) :
    IsWs (cs.takeWhile isWhitespace) ∧ cs = cs.takeWhile isWhitespace ++ skipWhitespace cs :=
  ⟨fun _ h => List.mem_takeWhile_imp h, (List.takeWhile_append_dropWhile _ _).symm⟩

theorem skipWhitespace_length_le (cs : List Char) : (skipWhitespace cs).length ≤ cs.length :=
  (List.dropWhile_suffix _).length_le

def NumStop (r : List Char) : Prop :=
  ∀ c ∈ r.head?, c.isDigit = false ∧ c ≠ '.' ∧ c ≠ 'e' ∧ c ≠ 'E'

theorem numStop_of_ws {w r : List Char} (ws : IsWs w)
    (stop : ∀ c ∈ r.head?, c = ',' ∨ c = ']' ∨ c = '}') : NumStop (w ++ r) := by
  intro c hc
  cases w with
  | cons d w =>
    obtain rfl : d = c := by simpa using hc
    have := ws d (by simp)
    revert this
    simp only [isWhitespace, Bool.or_eq_true, beq_iff_eq]
    rintro (((rfl | rfl) | rfl) | rfl) <;> decide
  | nil => rcases stop c (by simpa using hc) with rfl | rfl | rfl <;> decide

/-! ## Numbers -/

theorem digits_split {ds r : List Char} (digits : ∀ c ∈ ds, c.isDigit)
    (stop : ∀ c ∈ r.head?, c.isDigit = false) :
    (ds ++ r).takeWhile Char.isDigit = ds ∧ (ds ++ r).dropWhile Char.isDigit = r := by
  cases r with
  | nil => simp [List.takeWhile_eq_self_iff.mpr digits, List.dropWhile_eq_nil_iff.mpr digits]
  | cons c r =>
    have hc : c.isDigit = false := stop c rfl
    simp [List.takeWhile_append_of_pos digits, List.dropWhile_append_of_pos digits, hc]

theorem digits_run (cs : List Char) :
    cs = cs.takeWhile Char.isDigit ++ cs.dropWhile Char.isDigit ∧
      (∀ c ∈ cs.takeWhile Char.isDigit, c.isDigit) ∧
      ∀ c ∈ (cs.dropWhile Char.isDigit).head?, c.isDigit = false := by
  refine ⟨(List.takeWhile_append_dropWhile _ _).symm, fun _ h => List.mem_takeWhile_imp h, ?_⟩
  intro c hc
  have stop := List.head?_dropWhile_not Char.isDigit cs
  rw [Option.mem_def.mp hc] at stop
  exact stop

theorem intPart_sound {cs ds r : List Char} (h : intPart cs = some (ds, r)) :
    cs = ds ++ r ∧ IntDigits ds := by
  match cs with
  | [] => simp [intPart] at h
  | c :: rest =>
    by_cases zero : c = '0'
    · simp only [intPart, zero, if_true, Option.some.injEq, Prod.mk.injEq] at h
      obtain ⟨rfl, rfl⟩ := h
      exact ⟨by simp [zero], .inl rfl⟩
    · by_cases digit : c.isDigit
      · simp only [intPart, zero, digit, if_false, if_true, Option.some.injEq,
          Prod.mk.injEq] at h
        obtain ⟨rfl, rfl⟩ := h
        have run := digits_run rest
        exact ⟨by simp [← run.1], .inr ⟨c, _, rfl, zero, digit, run.2.1⟩⟩
      · simp [intPart, zero, digit] at h

theorem fracPart_sound (cs : List Char) :
    cs = fracText (fracPart cs).1 ++ (fracPart cs).2 ∧ FracDigits (fracPart cs).1 := by
  unfold fracPart
  split
  · rename_i c r
    by_cases digit : c.isDigit
    · have run := digits_run r
      simp only [digit, if_true, fracText]
      exact ⟨by simp [← run.1], by simp, fun x hx => by
        rcases List.mem_cons.mp hx with rfl | hx
        · exact digit
        · exact run.2.1 x hx⟩
    · simp [digit, fracText, FracDigits]
  · simp [fracText, FracDigits]

theorem expSign_sound (cs : List Char) :
    cs = (expSign cs).1.toList ++ (expSign cs).2 ∧
      ((expSign cs).1 = none ∨ (expSign cs).1 = some '-' ∨ (expSign cs).1 = some '+') := by
  cases cs with
  | nil => simp [expSign]
  | cons s r =>
    by_cases sign : s = '-' ∨ s = '+'
    · rcases sign with rfl | rfl <;> simp [expSign]
    · simp [expSign, sign]

theorem expPart_sound (cs : List Char) :
    cs = expText (expPart cs).1 ++ (expPart cs).2 ∧ ExpDigits (expPart cs).1 := by
  unfold expPart
  split
  · rename_i e r
    split
    · rename_i h
      have sign := expSign_sound r
      have run := digits_run (expSign r).2
      refine ⟨?_, h.1, sign.2, h.2, run.2.1⟩
      simp only [expText, List.cons_append, List.cons.injEq, true_and, List.append_assoc]
      rw [← run.1]
      exact sign.1
    · simp [expText, ExpDigits]
  · simp [expText, ExpDigits]

theorem numberSign_sound (cs : List Char) :
    cs = (if (numberSign cs).1 then ['-'] else []) ++ (numberSign cs).2 := by
  cases cs with
  | nil => rfl
  | cons c r => by_cases minus : c = '-' <;> simp [numberSign, minus]

theorem matchNumber_sound {cs : List Char} {n : NumberText} {r : List Char}
    (h : matchNumber cs = some (n, r)) : cs = n.text ++ r ∧ n.Valid := by
  unfold matchNumber at h
  split at h
  · cases h
  · rename_i ds r₁ hint
    simp only [Option.some.injEq, Prod.mk.injEq] at h
    obtain ⟨rfl, rfl⟩ := h
    have int := intPart_sound hint
    have frac := fracPart_sound r₁
    have exp := expPart_sound (fracPart r₁).2
    refine ⟨?_, ⟨int.2, frac.2, exp.2⟩⟩
    simp only [NumberText.text, List.append_assoc]
    rw [← exp.1, ← frac.1, ← int.1]
    exact numberSign_sound cs

theorem intPart_complete {ds r : List Char} (int : IntDigits ds)
    (stop : ∀ c ∈ r.head?, c.isDigit = false) : intPart (ds ++ r) = some (ds, r) := by
  rcases int with rfl | ⟨d, rest, rfl, zero, digit, digits⟩
  · simp [intPart]
  · have run := digits_split digits stop
    simp [intPart, zero, digit, run.1, run.2]

theorem fracPart_complete {f : Option (List Char)} {r : List Char} (frac : FracDigits f)
    (stop : ∀ c ∈ r.head?, c.isDigit = false) (none_stop : f = none → ∀ c ∈ r.head?, c ≠ '.') :
    fracPart (fracText f ++ r) = (f, r) := by
  cases f with
  | some ds =>
    obtain ⟨nonempty, digits⟩ := frac
    obtain ⟨d, ds, rfl⟩ := List.exists_cons_of_ne_nil nonempty
    have run := digits_split (fun c hc => digits c (List.mem_cons_of_mem d hc)) stop
    simp [fracPart, fracText, digits d (List.mem_cons_self d ds), run.1, run.2]
  | none =>
    unfold fracPart
    split
    · rename_i c r' heq
      exact absurd rfl (none_stop rfl '.' (by simp [fracText] at heq; simp [heq]))
    · rfl

theorem expSign_complete {sign : Option Char} {r : List Char}
    (valid : sign = none ∨ sign = some '-' ∨ sign = some '+')
    (stop : sign = none → ∀ c ∈ r.head?, c ≠ '-' ∧ c ≠ '+') :
    expSign (sign.toList ++ r) = (sign, r) := by
  rcases valid with rfl | rfl | rfl
  · cases r with
    | nil => rfl
    | cons c r =>
      have := stop rfl c rfl
      simp [expSign, this.1, this.2]
  · rfl
  · rfl

theorem expPart_complete {e : Option (Char × Option Char × List Char)} {r : List Char}
    (exp : ExpDigits e) (stop : ∀ c ∈ r.head?, c.isDigit = false)
    (none_stop : e = none → ∀ c ∈ r.head?, c ≠ 'e' ∧ c ≠ 'E') :
    expPart (expText e ++ r) = (e, r) := by
  cases e with
  | some exp' =>
    obtain ⟨l, sign, ds⟩ := exp'
    obtain ⟨letter, signValid, nonempty, digits⟩ := exp
    have hsign : expSign (sign.toList ++ (ds ++ r)) = (sign, ds ++ r) :=
      expSign_complete signValid fun _ c hc => by
        obtain ⟨d, ds', rfl⟩ := List.exists_cons_of_ne_nil nonempty
        obtain rfl : d = c := by simpa using hc
        have digit := digits d (List.mem_cons_self d ds')
        constructor <;> rintro rfl <;> simp at digit
    have run := digits_split digits stop
    simp only [expPart, expText, List.cons_append, List.append_assoc, hsign]
    rw [if_pos ⟨letter, by rw [run.1]; exact nonempty⟩, run.1, run.2]
  | none =>
    cases r with
    | nil => rfl
    | cons c r =>
      have := none_stop rfl c rfl
      simp [expPart, expText, this.1, this.2]

theorem IntDigits.head {ds : List Char} (int : IntDigits ds) :
    ∃ d rest, ds = d :: rest ∧ d.isDigit := by
  rcases int with rfl | ⟨d, rest, rfl, -, digit, -⟩
  · exact ⟨'0', [], rfl, rfl⟩
  · exact ⟨d, rest, rfl, digit⟩

theorem matchNumber_complete {n : NumberText} {r : List Char} (valid : n.Valid)
    (stop : NumStop r) : matchNumber (n.text ++ r) = some (n, r) := by
  obtain ⟨negative, ds, f, e⟩ := n
  obtain ⟨int, frac, exp⟩ := valid
  have expStop : ∀ c ∈ (expText e ++ r).head?, c.isDigit = false ∧ c ≠ '.' := by
    cases e with
    | some exp' =>
      obtain ⟨l, sign, ds⟩ := exp'
      rintro c hc
      obtain rfl : l = c := by simpa [expText] using hc
      rcases exp.1 with rfl | rfl <;> decide
    | none => exact fun c hc => ⟨(stop c hc).1, (stop c hc).2.1⟩
  have fracStop : ∀ c ∈ (fracText f ++ (expText e ++ r)).head?, c.isDigit = false := by
    cases f with
    | some ds =>
      intro c hc
      obtain rfl : '.' = c := by simpa [fracText] using hc
      rfl
    | none => exact fun c hc => (expStop c hc).1
  have hsign : numberSign (NumberText.text ⟨negative, ds, f, e⟩ ++ r) =
      (negative, ds ++ (fracText f ++ (expText e ++ r))) := by
    obtain ⟨d, rest, rfl, digit⟩ := int.head
    cases negative with
    | true => simp [NumberText.text, numberSign]
    | false =>
      have : d ≠ '-' := by rintro rfl; simp at digit
      simp [NumberText.text, numberSign, this]
  have noneExp : e = none → ∀ c ∈ r.head?, c ≠ 'e' ∧ c ≠ 'E' := by
    rintro rfl c hc
    exact (stop c hc).2.2
  simp only [matchNumber, hsign, intPart_complete int fracStop,
    fracPart_complete frac (fun c hc => (expStop c hc).1) (fun _ c hc => (expStop c hc).2),
    expPart_complete exp (fun c hc => (stop c hc).1) noneExp]

/-! ## Constants -/

theorem scanConstant_sound {cs : List Char} {v : PyValue} {r : List Char}
    (h : scanConstant cs = some (v, r)) : ∃ t, (t, v) ∈ constants ∧ cs = t ++ r := by
  obtain ⟨entry, member, found⟩ := List.exists_of_findSome?_eq_some h
  by_cases pre : entry.1.isPrefixOf cs
  · simp only [pre, if_true, Option.some.injEq, Prod.mk.injEq] at found
    obtain ⟨rfl, rfl⟩ := found
    obtain ⟨rest, hrest⟩ := List.isPrefixOf_iff_prefix.mp pre
    exact ⟨entry.1, member, by simp [← hrest]⟩
  · simp [pre] at found

theorem scanConstant_complete {t : List Char} {v : PyValue} (member : (t, v) ∈ constants)
    (r : List Char) : scanConstant (t ++ r) = some (v, r) := by
  simp only [constants, List.mem_cons, Prod.mk.injEq, List.mem_singleton, List.not_mem_nil,
    or_false] at member
  rcases member with ⟨rfl, rfl⟩ | ⟨rfl, rfl⟩ | ⟨rfl, rfl⟩ | ⟨rfl, rfl⟩ | ⟨rfl, rfl⟩ | ⟨rfl, rfl⟩ <;>
    simp [scanConstant, constants, List.isPrefixOf]

theorem scanConstant_digit {c : Char} (digit : c.isDigit) (rest : List Char) :
    scanConstant (c :: rest) = none := by
  have ne : ∀ x : Char, x.isDigit = false → x ≠ c := by rintro x hx rfl; simp [hx] at digit
  simp [scanConstant, constants, List.isPrefixOf, ne 'n' rfl, ne 't' rfl, ne 'f' rfl, ne 'N' rfl,
    ne 'I' rfl, ne '-' rfl]

theorem scanConstant_number {n : NumberText} (valid : n.Valid) (r : List Char) :
    scanConstant (n.text ++ r) = none := by
  obtain ⟨d, rest, hds, digit⟩ := valid.int_digits.head
  cases hn : n.negative with
  | false =>
    simp only [NumberText.text, hn, hds, if_false, List.nil_append, List.cons_append,
      List.append_assoc]
    exact scanConstant_digit digit _
  | true =>
    have ne : 'I' ≠ d := by rintro rfl; simp at digit
    simp [NumberText.text, hn, hds, scanConstant, constants, List.isPrefixOf, ne]

/-! ## Strings -/

theorem hex4_sound {cs : List Char} {u : Fin 0x10000} {rest : List Char}
    (h : hex4 cs = some (u, rest)) : ∃ ds, cs = ds ++ rest ∧ Hex4 ds u := by
  match cs, h with
  | a :: b :: c :: d :: rest', h =>
    simp only [hex4] at h
    split at h
    · rename_i x y z w ha hb hc hd
      simp only [Option.some.injEq, Prod.mk.injEq] at h
      obtain ⟨rfl, rfl⟩ := h
      exact ⟨[a, b, c, d], rfl, by simp [Hex4, hex4, ha, hb, hc, hd]⟩
    · cases h

theorem hex4_complete {ds : List Char} {u : Fin 0x10000} (hex : Hex4 ds u) (rest : List Char) :
    hex4 (ds ++ rest) = some (u, rest) := by
  unfold Hex4 at hex
  match ds, hex with
  | [a, b, c, d], hex =>
    simp only [hex4] at hex ⊢
    split at hex
    · rename_i x y z w ha hb hc hd
      simp only [Option.some.injEq, Prod.mk.injEq] at hex
      simp [ha, hb, hc, hd, hex.1]
    · cases hex
  | a :: b :: c :: d :: e :: more, hex =>
    simp only [hex4] at hex
    split at hex <;> simp at hex

theorem Hex4.length {ds : List Char} {u : Fin 0x10000} (hex : Hex4 ds u) : ds.length = 4 := by
  match ds, hex with
  | [_, _, _, _], _ => rfl
  | a :: b :: c :: d :: e :: more, hex =>
    unfold Hex4 at hex
    simp only [hex4] at hex
    split at hex <;> simp at hex

theorem scanUnicodeEscape_sound {cs : List Char} {u : CodePoint} {rest : List Char}
    (h : scanUnicodeEscape cs = .ok (u, rest)) :
    (∃ ds hi, cs = ds ++ rest ∧ Hex4 ds hi ∧ u = Fin.castLE (by omega) hi ∧
      (isHighSurrogate hi → ∀ es lo t, rest = '\\' :: 'u' :: es ++ t → Hex4 es lo →
        isLowSurrogate lo → t = [])) ∨
    ∃ ds es hi lo, ∃ (high : isHighSurrogate hi) (low : isLowSurrogate lo),
      cs = ds ++ '\\' :: 'u' :: es ++ rest ∧ Hex4 ds hi ∧ Hex4 es lo ∧
        u = joinSurrogates hi lo high low := by
  unfold scanUnicodeEscape at h
  split at h
  · rename_i u₀ r₀ hfirst
    obtain ⟨ds, rfl, hds⟩ := hex4_sound hfirst
    split at h
    · cases h
    · split at h
      · rename_i high
        split at h
        · rename_i more
          split at h
          · rename_i short
            obtain ⟨rfl, rfl⟩ := Prod.mk.inj (Except.ok.inj h)
            refine .inl ⟨ds, u₀, rfl, hds, rfl, fun _ es lo t heq hes _ => ?_⟩
            simp only [List.cons_append, List.cons.injEq, true_and] at heq
            have := hes.length
            rw [heq, List.length_append] at short
            exact List.eq_nil_of_length_eq_zero (by omega)
          · split at h
            · rename_i lo rest' hlo
              split at h
              · rename_i low
                obtain ⟨rfl, rfl⟩ := Prod.mk.inj (Except.ok.inj h)
                obtain ⟨es, rfl, hes⟩ := hex4_sound hlo
                exact .inr ⟨ds, es, u₀, lo, high, low, by simp, hds, hes, rfl⟩
              · rename_i notLow
                obtain ⟨rfl, rfl⟩ := Prod.mk.inj (Except.ok.inj h)
                refine .inl ⟨ds, u₀, rfl, hds, rfl, fun _ es lo' t heq hes low => ?_⟩
                simp only [List.cons_append, List.cons.injEq, true_and] at heq
                rw [heq, hex4_complete hes] at hlo
                cases hlo
                exact absurd low notLow
            · cases h
        · rename_i noEscape
          obtain ⟨rfl, rfl⟩ := Prod.mk.inj (Except.ok.inj h)
          exact .inl ⟨ds, u₀, rfl, hds, rfl, fun _ es lo t heq => absurd heq (noEscape _)⟩
      · obtain ⟨rfl, rfl⟩ := Prod.mk.inj (Except.ok.inj h)
        exact .inl ⟨ds, u₀, rfl, hds, rfl, fun high => absurd high ‹_›⟩
  · cases h

theorem scanUnicodeEscape_single {ds : List Char} {u : Fin 0x10000} (hex : Hex4 ds u)
    {t : List Char} (nonempty : t ≠ [])
    (noLow : isHighSurrogate u → ∀ more, t = '\\' :: 'u' :: more → 5 ≤ more.length →
      ∃ lo rest, hex4 more = some (lo, rest) ∧ isLowSurrogate lo = false) :
    scanUnicodeEscape (ds ++ t) = .ok (Fin.castLE (by omega) u, t) := by
  unfold scanUnicodeEscape
  rw [hex4_complete hex]
  dsimp only
  rw [if_neg nonempty]
  split
  · rename_i high
    split
    · rename_i more
      split
      · rfl
      · rename_i long
        obtain ⟨lo, rest, hlo, notLow⟩ := noLow high more rfl (by omega)
        simp [hlo, notLow]
    · rfl
  · rfl

theorem scanUnicodeEscape_pair {ds es : List Char} {hi lo : Fin 0x10000} (hds : Hex4 ds hi)
    (hes : Hex4 es lo) (high : isHighSurrogate hi) (low : isLowSurrogate lo) {t : List Char}
    (nonempty : t ≠ []) :
    scanUnicodeEscape (ds ++ '\\' :: 'u' :: (es ++ t)) =
      .ok (joinSurrogates hi lo high low, t) := by
  have long : ¬ (es ++ t).length < 5 := by
    obtain ⟨c, t', rfl⟩ := List.exists_cons_of_ne_nil nonempty
    simp only [List.length_append, hes.length, List.length_cons]
    omega
  unfold scanUnicodeEscape
  rw [hex4_complete hds]
  simp only [List.cons_append, List.cons_ne_nil, if_false, high, dif_pos, long,
    hex4_complete hes, low]

theorem StringBody.unicode_head {b : List Char} {s : PyStr} (hb : StringBody b s) {more : List Char}
    (h : b = '\\' :: 'u' :: more) : ∃ es u rest, more = es ++ rest ∧ Hex4 es u := by
  cases hb with
  | nil => cases h
  | unescaped _ notBackslash _ _ => exact absurd (List.cons.inj h).1 notBackslash
  | escape esc _ =>
    obtain ⟨rfl, -⟩ : _ ∧ _ := by simpa using h
    simp [simpleEscape] at esc
  | unicode hex _ _ => exact ⟨_, _, _, by simpa using h.symm, hex⟩
  | pair _ _ hex _ _ => exact ⟨_, _, _, by simpa using h.symm, hex⟩

theorem scanstring_sound {fuel begin : Nat} {cs : List Char} {chunks : List CodePoint} {s : PyStr}
    {r : List Char} (h : scanstring fuel begin cs chunks = .ok (s, r)) :
    ∃ b body, cs = b ++ '"' :: r ∧ StringBody b body ∧ s = chunks.reverse ++ body := by
  induction fuel generalizing cs chunks with
  | zero => cases h
  | succ fuel ih =>
    match cs with
    | [] => cases h
    | c :: rest =>
      by_cases quote : c = '"'
      · subst quote
        simp only [scanstring, if_true, Except.ok.injEq, Prod.mk.injEq] at h
        obtain ⟨rfl, rfl⟩ := h
        exact ⟨[], [], rfl, .nil, by simp⟩
      by_cases backslash : c = '\\'
      · subst backslash
        simp only [scanstring, if_true, show '\\' ≠ '"' by decide, if_false] at h
        split at h
        · cases h
        · rename_i more
          split at h
          · rename_i u rest' hu
            obtain ⟨b, body, rfl, hb, rfl⟩ := ih h
            refine (scanUnicodeEscape_sound hu).elim (fun ⟨ds, hi, hmore, hds, hu, cond⟩ => ?_)
              (fun ⟨ds, es, hi, lo, high, low, hmore, hds, hes, hu⟩ => ?_)
            · refine ⟨'\\' :: 'u' :: ds ++ b, u :: body, by simp [hmore], ?_, by simp⟩
              rw [hu]
              refine .unicode hds (fun ⟨high, es, lo, t, hb', hes, low⟩ => ?_) hb
              have := cond high es lo (t ++ '"' :: r) (by simp [hb']) hes low
              simp at this
            · exact ⟨'\\' :: 'u' :: ds ++ '\\' :: 'u' :: es ++ b, u :: body, by simp [hmore],
                hu ▸ .pair high low hds hes hb, by simp⟩
          · cases h
        · rename_i e more notU
          split at h
          · rename_i x hx
            obtain ⟨b, body, rfl, hb, rfl⟩ := ih h
            exact ⟨'\\' :: e :: b, toCodePoint x :: body, rfl, .escape hx hb, by simp⟩
          · cases h
      by_cases control : c.toNat ≤ 0x1f
      · simp [scanstring, quote, backslash, control] at h
      · simp only [scanstring, quote, backslash, control, if_false] at h
        obtain ⟨b, body, rfl, hb, rfl⟩ := ih h
        exact ⟨c :: b, toCodePoint c :: body, rfl, .unescaped quote backslash (by omega) hb,
          by simp⟩

theorem scanstring_complete {b : List Char} {body : PyStr} (hb : StringBody b body) :
    ∀ {fuel : Nat} (begin : Nat) (r : List Char) (chunks : List CodePoint), b.length < fuel →
      scanstring fuel begin (b ++ '"' :: r) chunks = .ok (chunks.reverse ++ body, r) := by
  induction hb with
  | nil =>
    intro fuel begin r chunks bound
    obtain ⟨k, rfl⟩ := Nat.exists_eq_add_of_lt bound
    simp [scanstring]
  | @unescaped c t s quote backslash printable _ ih =>
    intro fuel begin r chunks bound
    obtain ⟨k, rfl⟩ := Nat.exists_eq_add_of_lt bound
    have control : ¬ c.toNat ≤ 0x1f := by omega
    simp only [List.cons_append, scanstring, quote, backslash, control, if_false, List.append_eq]
    rw [ih begin r _ (by simp; omega)]
    simp
  | @escape e x t s esc _ ih =>
    intro fuel begin r chunks bound
    obtain ⟨k, rfl⟩ := Nat.exists_eq_add_of_lt bound
    have notU : e ≠ 'u' := by rintro rfl; simp [simpleEscape] at esc
    simp only [List.cons_append, scanstring, show '\\' ≠ '"' by decide, if_false, if_true]
    split
    · rename_i heq
      cases heq
    · rename_i more heq
      exact absurd (List.cons.inj heq).1 notU
    · rename_i e' more _ heq
      obtain ⟨rfl, rfl⟩ := List.cons.inj heq
      simp only [esc, List.append_eq]
      rw [ih begin r _ (by simp; omega)]
      simp
  | @unicode ds u t s hex noPair body ih =>
    intro fuel begin r chunks bound
    obtain ⟨k, rfl⟩ := Nat.exists_eq_add_of_lt bound
    have cond : isHighSurrogate u → ∀ more, t ++ '"' :: r = '\\' :: 'u' :: more →
        5 ≤ more.length → ∃ lo rest, hex4 more = some (lo, rest) ∧ isLowSurrogate lo = false := by
      intro high more heq _
      rcases t with _ | ⟨c, _ | ⟨d, t'⟩⟩
      · simp at heq
      · simp at heq
      · simp only [List.cons_append, List.cons.injEq] at heq
        obtain ⟨rfl, rfl, rfl⟩ := heq
        obtain ⟨es, lo, rest, rfl, hes⟩ := body.unicode_head rfl
        refine ⟨lo, rest ++ '"' :: r, by rw [List.append_assoc, hex4_complete hes], ?_⟩
        cases low : isLowSurrogate lo
        · rfl
        · exact absurd ⟨high, es, lo, rest, rfl, hes, low⟩ noPair
    simp only [scanstring, show '\\' ≠ '"' by decide, if_false, if_true]
    simp only [List.append_eq, List.cons_append, List.append_assoc]
    rw [scanUnicodeEscape_single hex (by simp) cond]
    dsimp only
    rw [ih begin r _ (by simp [hex.length]; omega)]
    simp
  | @pair ds es hi lo t s high low hds hes _ ih =>
    intro fuel begin r chunks bound
    obtain ⟨k, rfl⟩ := Nat.exists_eq_add_of_lt bound
    simp only [scanstring, show '\\' ≠ '"' by decide, if_false, if_true]
    simp only [List.append_eq, List.cons_append, List.append_assoc]
    rw [scanUnicodeEscape_pair hds hes high low (by simp)]
    dsimp only
    rw [ih begin r _ (by simp [hds.length, hes.length]; omega)]
    simp

end GenDepsMd.Json
