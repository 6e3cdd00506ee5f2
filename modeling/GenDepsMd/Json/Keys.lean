import Mathlib.Data.List.Nodup
import GenDepsMd.Json.Soundness

namespace GenDepsMd.Json

inductive WellKeyed : PyValue → Prop
  | none : WellKeyed .none
  | bool (b : Bool) : WellKeyed (.bool b)
  | int (n : Int) : WellKeyed (.int n)
  | float (x : PyFloat) : WellKeyed (.float x)
  | str (s : PyStr) : WellKeyed (.str s)
  | list {items : List PyValue} : (∀ v ∈ items, WellKeyed v) → WellKeyed (.list items)
  | dict {entries : List (PyStr × PyValue)} : (entries.map Prod.fst).Nodup →
      (∀ kv ∈ entries, WellKeyed kv.2) → WellKeyed (.dict entries)

/-! ## Setting an item -/

theorem lookup_cons_eq_ite (k k' : PyStr) (v : PyValue) (rest : List (PyStr × PyValue)) :
    ((k', v) :: rest).lookup k = if k = k' then some v else rest.lookup k := by
  by_cases hk : k = k'
  · simp [hk]
  · simp [List.lookup_cons, beq_eq_false_iff_ne.2 hk, hk]

section SetItem
variable (key : PyStr) (value : PyValue)

theorem keys_dictSetItem (d : List (PyStr × PyValue)) :
    (dictSetItem d key value).map Prod.fst =
      if key ∈ d.map Prod.fst then d.map Prod.fst else d.map Prod.fst ++ [key] := by
  induction d with
  | nil => simp [dictSetItem]
  | cons kv rest ih =>
    obtain ⟨k, v⟩ := kv
    by_cases same : k = key
    · simp [dictSetItem, same]
    · simp only [dictSetItem, if_neg same, List.map_cons, ih, List.mem_cons, Ne.symm same,
        false_or]
      split_ifs <;> rfl

theorem mem_dictSetItem {d : List (PyStr × PyValue)} {kv : PyStr × PyValue}
    (h : kv ∈ dictSetItem d key value) : kv ∈ d ∨ kv = (key, value) := by
  induction d with
  | nil => simpa [dictSetItem] using h
  | cons e rest ih =>
    obtain ⟨k, v⟩ := e
    simp only [dictSetItem] at h
    split_ifs at h
    · rcases List.mem_cons.1 h with rfl | h
      · exact .inr rfl
      · exact .inl (List.mem_cons_of_mem _ h)
    · rcases List.mem_cons.1 h with rfl | h
      · exact .inl (List.mem_cons_self _ _)
      · exact (ih h).imp_left (List.mem_cons_of_mem _)

theorem nodup_dictSetItem {d : List (PyStr × PyValue)} (nodup : (d.map Prod.fst).Nodup) :
    ((dictSetItem d key value).map Prod.fst).Nodup := by
  rw [keys_dictSetItem]
  split_ifs with present
  · exact nodup
  · exact nodup.append (List.nodup_singleton key) (List.disjoint_singleton.2 present)

theorem lookup_dictSetItem (d : List (PyStr × PyValue)) (k : PyStr) :
    (dictSetItem d key value).lookup k = if k = key then some value else d.lookup k := by
  induction d with
  | nil => simp [dictSetItem, lookup_cons_eq_ite]
  | cons e rest ih =>
    obtain ⟨k', v⟩ := e
    by_cases same : k' = key
    · subst same
      by_cases hk : k = k' <;> simp [dictSetItem, lookup_cons_eq_ite, hk]
    · by_cases hk : k = k'
      · simp [dictSetItem, lookup_cons_eq_ite, same, hk]
      · simp [dictSetItem, lookup_cons_eq_ite, same, hk, ih]

end SetItem

/-! ## Building a dict from its members -/

theorem foldl_dictSetItem (pairs d : List (PyStr × PyValue)) (nodup : (d.map Prod.fst).Nodup) :
    let r := pairs.foldl (fun d kv => dictSetItem d kv.1 kv.2) d
    (r.map Prod.fst).Nodup ∧ ∀ kv ∈ r, kv ∈ d ∨ kv ∈ pairs := by
  induction pairs generalizing d with
  | nil => simpa using nodup
  | cons p ps ih =>
    obtain ⟨keys, mem⟩ := ih _ (nodup_dictSetItem p.1 p.2 nodup)
    refine ⟨keys, fun kv h => ?_⟩
    rcases mem kv h with h | h
    · rcases mem_dictSetItem p.1 p.2 h with h | rfl
      · exact .inl h
      · exact .inr (List.mem_cons_self _ _)
    · exact .inr (List.mem_cons_of_mem _ h)

theorem lookup_foldl_dictSetItem (pairs d : List (PyStr × PyValue)) (k : PyStr) :
    (pairs.foldl (fun d kv => dictSetItem d kv.1 kv.2) d).lookup k =
      (pairs.reverse.lookup k).or (d.lookup k) := by
  induction pairs generalizing d with
  | nil => simp
  | cons p ps ih =>
    obtain ⟨k', v⟩ := p
    rw [List.foldl_cons, ih, lookup_dictSetItem, List.reverse_cons, List.lookup_append,
      Option.or_assoc]
    by_cases hk : k = k' <;> simp [lookup_cons_eq_ite, hk]

theorem get_dictOf (pairs : List (PyStr × PyValue)) (key : PyStr) (fallback : PyValue) :
    (PyValue.dict (dictOf pairs)).get key fallback = .ok ((pairs.reverse.lookup key).getD fallback) := by
  simp [PyValue.get, dictOf, lookup_foldl_dictSetItem]

/-! ## Decoded values -/

theorem WellKeyed.dictOf {pairs : List (PyStr × PyValue)} (values : ∀ kv ∈ pairs, WellKeyed kv.2) :
    WellKeyed (.dict (dictOf pairs)) :=
  have ⟨keys, mem⟩ := foldl_dictSetItem pairs [] List.nodup_nil
  .dict keys fun kv h => values kv ((mem kv h).resolve_left (List.not_mem_nil _))

theorem WellKeyed.of_isNumeral {v : PyValue} (h : isNumeral v) : WellKeyed v := by
  cases v with
  | int n => exact .int n
  | float x => exact .float x
  | _ => nomatch h

theorem constants_wellKeyed : ∀ e ∈ constants, WellKeyed e.2 := by
  simp only [constants, List.forall_mem_cons]
  exact ⟨.none, .bool _, .bool _, .float _, .float _, .float _, fun _ h => nomatch h⟩

theorem Text.wellKeyed {t : List Char} {v : PyValue} (h : Text t v) : WellKeyed v := by
  induction h with
  | constant mem => exact constants_wellKeyed _ mem
  | number n _ => exact .of_isNumeral n.value_isNumeral
  | string _ => exact .str _
  | emptyArray _ => exact .list fun _ h => nomatch h
  | array e es _ _ ih => exact .list (by simpa using ih)
  | emptyObject _ => exact .dict List.nodup_nil fun _ h => nomatch h
  | object m ms _ _ ih => exact .dictOf (by simpa [Member.pair] using ih)

end GenDepsMd.Json
