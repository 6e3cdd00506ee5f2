import GenDepsMd.Json.Soundness

namespace GenDepsMd.Json

def PlacedIn (n : Nat) : ScanError → Prop
  | .decode d => d.remaining ≤ n
  | .valueError _ => True
  | .recursionError _ => True
  | .outOfFuel => False

theorem PlacedIn.mono {m n : Nat} {e : ScanError} (h : PlacedIn m e) (le : m ≤ n) :
    PlacedIn n e := by
  cases e with
  | decode d => exact Nat.le_trans h le
  | _ => exact h

/-! ## Leaves -/

theorem scanUnicodeEscape_placed {cs : List Char} {e : ScanError}
    (h : scanUnicodeEscape cs = .error e) : PlacedIn (cs.length + 1) e := by
  unfold scanUnicodeEscape at h
  split at h
  · rename_i u rest hu
    obtain ⟨ds, rfl, -⟩ := hex4_sound hu
    repeat' split at h
    all_goals cases h
    all_goals (simp only [PlacedIn, List.length_append, List.length_cons]; omega)
  · cases h
    exact le_refl _

theorem scanUnicodeEscape_length {cs : List Char} {u : CodePoint} {rest : List Char}
    (h : scanUnicodeEscape cs = .ok (u, rest)) : rest.length < cs.length := by
  rcases scanUnicodeEscape_sound h with ⟨ds, _, rfl, hds, -⟩ | ⟨ds, es, -, -, -, -, rfl, -⟩
  · simp [Hex4.length hds]
  · simp
    omega

theorem scanstring_placed {fuel begin : Nat} {cs : List Char} {chunks : List CodePoint}
    {e : ScanError} (enough : cs.length < fuel) (within : cs.length ≤ begin)
    (h : scanstring fuel begin cs chunks = .error e) : PlacedIn begin e := by
  induction fuel generalizing cs chunks with
  | zero => omega
  | succ fuel ih =>
    match cs with
    | [] =>
      cases h
      exact le_refl _
    | c :: rest =>
      simp only [List.length_cons] at enough within
      unfold scanstring at h
      split_ifs at h
      · split at h
        · cases h
          exact le_refl _
        · split at h
          · rename_i u rest' hu
            have := scanUnicodeEscape_length hu
            exact ih (by simp at enough; omega) (by simp at within; omega) h
          · rename_i _ he
            cases h
            exact (scanUnicodeEscape_placed he).mono (by simp at within; omega)
        · split at h
          · exact ih (by simp at enough; omega) (by simp at within; omega) h
          · cases h
            simp only [PlacedIn]
            simp at within
            omega
      · cases h
        simp only [PlacedIn]
        omega
      · exact ih (by omega) (by omega) h

theorem skipWhitespace_cons_length {r r' : List Char} {c : Char}
    (h : skipWhitespace r = c :: r') : r'.length < r.length := by
  have := skipWhitespace_length_le r
  rw [h, List.length_cons] at this
  omega

/-! ## The three functions of the scanner, one step of fuel at a time -/

section
variable {fuel : Nat}

theorem scanOnce_placed_succ
    (array : ∀ {limit cs items e}, 2 * cs.length + 1 < fuel → arrayItems fuel limit cs items = .error e →
      PlacedIn cs.length e)
    (object : ∀ {limit cs entries e}, 2 * cs.length + 1 < fuel →
      objectItems fuel limit cs entries = .error e → PlacedIn cs.length e)
    {limit : Nat} {cs : List Char} {e : ScanError} (enough : 2 * cs.length < fuel + 1)
    (h : scanOnce (fuel + 1) limit cs = .error e) : PlacedIn cs.length e := by
  match cs with
  | [] =>
    cases h
    exact le_refl _
  | c :: rest =>
    have skip := skipWhitespace_length_le rest
    simp only [List.length_cons] at enough ⊢
    unfold scanOnce at h
    split_ifs at h
    · split at h
      · cases h
      · rename_i _ he
        cases h
        exact scanstring_placed (by omega) (by omega) he
    · cases h
      trivial
    · split at h
      · cases h
      · exact (object (by omega) h).mono (by omega)
    · cases h
      trivial
    · split at h
      · cases h
      · exact (array (by omega) h).mono (by omega)
    · split at h
      · cases h
      · split at h
        · split at h
          · cases h
            trivial
          · cases h
        · cases h
          exact le_refl _

theorem arrayItems_placed_succ
    (value : ∀ {limit cs e}, 2 * cs.length < fuel → scanOnce fuel limit cs = .error e →
      PlacedIn cs.length e)
    (array : ∀ {limit cs items e}, 2 * cs.length + 1 < fuel → arrayItems fuel limit cs items = .error e →
      PlacedIn cs.length e)
    {limit : Nat} {cs : List Char} {items : List PyValue} {e : ScanError}
    (enough : 2 * cs.length + 1 < fuel + 1) (h : arrayItems (fuel + 1) limit cs items = .error e) :
    PlacedIn cs.length e := by
  unfold arrayItems at h
  split at h
  · rename_i _ he
    cases h
    exact value (by omega) he
  · rename_i v r hv
    obtain ⟨t, rfl, ht⟩ := scanOnce_sound hv
    have := ht.length_pos
    have := skipWhitespace_length_le r
    simp only [List.length_append] at enough ⊢
    split at h
    · cases h
    · rename_i r' hr'
      have := skipWhitespace_cons_length hr'
      have := skipWhitespace_length_le r'
      exact (array (by omega) h).mono (by omega)
    · cases h
      simp only [PlacedIn]
      omega

theorem objectItems_placed_succ
    (value : ∀ {limit cs e}, 2 * cs.length < fuel → scanOnce fuel limit cs = .error e →
      PlacedIn cs.length e)
    (object : ∀ {limit cs entries e}, 2 * cs.length + 1 < fuel →
      objectItems fuel limit cs entries = .error e → PlacedIn cs.length e)
    {limit : Nat} {cs : List Char} {entries : List (PyStr × PyValue)} {e : ScanError}
    (enough : 2 * cs.length + 1 < fuel + 1) (h : objectItems (fuel + 1) limit cs entries = .error e) :
    PlacedIn cs.length e := by
  match cs with
  | [] =>
    cases h
    exact le_refl _
  | c :: cs =>
    by_cases quote : c = '"'
    swap
    · simp [objectItems, quote] at h
      subst h
      simp [PlacedIn]
    subst quote
    simp only [objectItems] at h
    simp only [List.length_cons] at enough ⊢
    split at h
    · rename_i _ he
      cases h
      exact scanstring_placed (by omega) (Nat.le_succ _) he
    · rename_i key r₁ hkey
      obtain ⟨b, -, rfl, -, -⟩ := scanstring_sound hkey
      have := skipWhitespace_length_le r₁
      simp only [List.length_append, List.length_cons] at enough ⊢
      split at h
      · rename_i r₂ hr₂
        have := skipWhitespace_cons_length hr₂
        have := skipWhitespace_length_le r₂
        split at h
        · rename_i _ he
          cases h
          exact (value (by omega) he).mono (by omega)
        · rename_i v r₃ hv
          obtain ⟨t, ht, htext⟩ := scanOnce_sound hv
          have := htext.length_pos
          have := skipWhitespace_length_le r₃
          have read := congrArg List.length ht
          rw [List.length_append] at read
          split at h
          · cases h
          · rename_i rest hrest
            have := skipWhitespace_cons_length hrest
            have := skipWhitespace_length_le rest
            exact (object (by omega) h).mono (by omega)
          · cases h
            simp only [PlacedIn]
            omega
      · cases h
        simp only [PlacedIn]
        omega

end

theorem scan_placed : ∀ fuel : Nat,
    (∀ {limit cs e}, 2 * cs.length < fuel → scanOnce fuel limit cs = .error e →
      PlacedIn cs.length e) ∧
    (∀ {limit cs items e}, 2 * cs.length + 1 < fuel → arrayItems fuel limit cs items = .error e →
      PlacedIn cs.length e) ∧
    (∀ {limit cs entries e}, 2 * cs.length + 1 < fuel →
      objectItems fuel limit cs entries = .error e → PlacedIn cs.length e)
  | 0 => ⟨fun h => absurd h (by omega), fun h => absurd h (by omega), fun h => absurd h (by omega)⟩
  | fuel + 1 =>
    have ⟨value, array, object⟩ := scan_placed fuel
    ⟨scanOnce_placed_succ array object, arrayItems_placed_succ value array,
      objectItems_placed_succ value object⟩

def PlacedAt (s : List Char) (idx : Nat) : RawDecodeError → Prop
  | .jsonDecodeError e => e.doc = s ∧ idx ≤ e.pos ∧ e.pos ≤ s.length
  | .valueError _ => True
  | .recursionError _ => True
  | .outOfFuel => False

theorem ScanError.placedAt_raise {s : List Char} {idx : Nat} {e : ScanError}
    (within : idx ≤ s.length) (h : PlacedIn (s.length - idx) e) : PlacedAt s idx (e.raise s) := by
  cases e with
  | decode d =>
    simp only [PlacedIn] at h
    exact ⟨rfl, show idx ≤ s.length - d.remaining by omega, Nat.sub_le _ _⟩
  | _ => exact h

theorem rawDecode_placed {limit : Nat} {s : List Char} {idx : Nat} {e : RawDecodeError}
    (within : idx ≤ s.length) (h : rawDecode limit s idx = .error e) : PlacedAt s idx e := by
  unfold rawDecode at h
  rw [if_neg (Nat.not_lt.2 within)] at h
  split at h
  · cases h
  · rename_i _ he
    cases h
    exact ScanError.placedAt_raise within (by simpa using (scan_placed _).1 (by omega) he)

theorem rawDecode_ne_outOfFuel (limit : Nat) (s : List Char) (idx : Nat) :
    rawDecode limit s idx ≠ .error .outOfFuel := by
  intro h
  by_cases within : idx ≤ s.length
  · exact rawDecode_placed within h
  · rw [rawDecode, if_pos (Nat.lt_of_not_le within)] at h
    cases h

end GenDepsMd.Json
