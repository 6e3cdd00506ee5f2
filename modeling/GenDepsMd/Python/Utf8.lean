import Mathlib.Data.List.Lex
import GenDepsMd.Python.Value

namespace GenDepsMd

def encodeChar (c : CodePoint) : List Nat :=
  let n := c.val
  if n < 0x80 then [n]
  else if n < 0x800 then [0xC0 + n / 0x40, 0x80 + n % 0x40]
  else if n < 0x10000 then [0xE0 + n / 0x1000, 0x80 + n / 0x40 % 0x40, 0x80 + n % 0x40]
  else [0xF0 + n / 0x40000, 0x80 + n / 0x1000 % 0x40, 0x80 + n / 0x40 % 0x40, 0x80 + n % 0x40]

/-- `s.encode("utf-8", "surrogatepass")`, which is `s.encode("utf-8")` on a `str` without
surrogates. -/
def utf8 (s : PyStr) : List Nat := s.flatMap encodeChar

theorem encodeChar_ne_nil (c : CodePoint) : encodeChar c ≠ [] := by
  dsimp only [encodeChar]
  split_ifs <;> simp

theorem lex_cons_of_le {x y : Nat} {l₁ l₂ : List Nat} (h : x ≤ y)
    (next : x = y → List.Lex (· < ·) l₁ l₂) : List.Lex (· < ·) (x :: l₁) (y :: l₂) := by
  rcases Nat.lt_or_eq_of_le h with lt | rfl
  exacts [.rel lt, .cons (next rfl)]

theorem encodeChar_append_lt {a b : CodePoint} (h : a < b) (x y : List Nat) :
    List.Lex (· < ·) (encodeChar a ++ x) (encodeChar b ++ y) := by
  have hb := b.isLt
  have hab : a.val < b.val := h
  dsimp only [encodeChar]
  split_ifs <;> simp only [List.cons_append, List.nil_append]
  all_goals
    repeat (apply lex_cons_of_le (by omega); intro)
    exfalso
    omega

theorem utf8_lt_of_lt {s t : PyStr} (h : s < t) : utf8 s < utf8 t := by
  replace h : List.Lex (· < ·) s t := h
  show List.Lex (· < ·) (utf8 s) (utf8 t)
  induction h with
  | @nil a l =>
    obtain ⟨b, bs, hb⟩ := List.exists_cons_of_ne_nil (encodeChar_ne_nil a)
    simp only [utf8, List.flatMap_nil, List.flatMap_cons, hb, List.cons_append]
    exact .nil
  | cons _ ih =>
    simp only [utf8, List.flatMap_cons] at ih ⊢
    exact ih.append_left _ _
  | rel lt => exact encodeChar_append_lt lt _ _

/-- Comparing the UTF-8 bytes of two `str`s is comparing their code points. -/
theorem utf8_lt_iff (s t : PyStr) : utf8 s < utf8 t ↔ s < t := by
  refine ⟨fun h => ?_, utf8_lt_of_lt⟩
  rcases lt_trichotomy s t with lt | rfl | gt
  · exact lt
  · exact absurd h (lt_irrefl _)
  · exact absurd h (lt_asymm (utf8_lt_of_lt gt))

end GenDepsMd
