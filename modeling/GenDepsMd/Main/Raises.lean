import GenDepsMd.Main.Graph

namespace GenDepsMd.Main

inductive Raises : PyValue → PyException → Prop
  /-- `pkg.get("ImportPath", "")` on a value that is not an object. -/
  | notObject {v : PyValue} : (∀ entries, v ≠ .dict entries) →
      Raises v (.attributeError v.typeName "get")
  /-- `imp_path.startswith(MODULE)` on an `ImportPath` that is not a `str`. -/
  | importPathNotStr {entries : List (PyStr × PyValue)} {x : PyValue} :
      entries.lookup (py "ImportPath") = some x → strOf x = none →
      Raises (.dict entries) (.attributeError x.typeName "startswith")
  /-- `for dep in pkg.get("Deps", []) or []` over a truthy `Deps` that is not iterable. -/
  | depsNotIterable {entries : List (PyStr × PyValue)} {p : PyStr} {d : PyValue} :
      entries.lookup (py "ImportPath") = some (.str p) → MODULE.isPrefixOf p →
      entries.lookup (py "Deps") = some d → d.toBool → (∀ items, d.iter ≠ .ok items) →
      Raises (.dict entries) (.typeError d.typeName)
  /-- `dep.startswith(MODULE)` on the first item of the `Deps` list that is not a `str`. -/
  | depNotStr {entries : List (PyStr × PyValue)} {p : PyStr} {pre post : List PyValue}
      {x : PyValue} :
      entries.lookup (py "ImportPath") = some (.str p) → MODULE.isPrefixOf p →
      entries.lookup (py "Deps") = some (.list (pre ++ x :: post)) →
      (∀ y ∈ pre, ∃ s, y = .str s) → strOf x = none →
      Raises (.dict entries) (.attributeError x.typeName "startswith")

/-! ## Loops whose body raises whatever the state -/

section
variable {σ α ε : Type} {f : σ → α → Except ε σ} (good : α → Prop) (bad : α → ε → Prop)

theorem exists_split_cons {b : α} {items : List α} {e : ε} :
    (∃ pre a post, b :: items = pre ++ a :: post ∧ (∀ c ∈ pre, good c) ∧ bad a e) ↔
      bad b e ∨ good b ∧ ∃ pre a post, items = pre ++ a :: post ∧ (∀ c ∈ pre, good c) ∧ bad a e := by
  constructor
  · rintro ⟨_ | ⟨c, pre⟩, a, post, split, fine, fail⟩
    · obtain ⟨rfl, rfl⟩ := List.cons.inj split
      exact .inl fail
    · obtain ⟨rfl, rfl⟩ := List.cons.inj split
      exact .inr ⟨fine _ (.head _), pre, a, post, rfl, fun x hx => fine x (.tail _ hx), fail⟩
  · rintro (fail | ⟨fine, pre, a, post, rfl, fine', fail⟩)
    · exact ⟨[], b, items, rfl, by simp, fail⟩
    · exact ⟨b :: pre, a, post, rfl, List.forall_mem_cons.2 ⟨fine, fine'⟩, fail⟩

theorem foldlM_error_iff (raises : ∀ s a e, f s a = .error e ↔ bad a e)
    (takes : ∀ a, good a ↔ ∀ e, ¬bad a e) (items : List α) (s : σ) (e : ε) :
    items.foldlM f s = .error e ↔
      ∃ pre a post, items = pre ++ a :: post ∧ (∀ b ∈ pre, good b) ∧ bad a e := by
  induction items generalizing s with
  | nil => simp [pure, Except.pure]
  | cons b items ih =>
    rw [List.foldlM_cons, exists_split_cons, ← raises s b e]
    cases hb : f s b with
    | error e' =>
      have notGood : ¬good b := fun h => (takes b).1 h e' ((raises s b e').1 hb)
      simp [error_bind, notGood]
    | ok t =>
      have isGood : good b := (takes b).2 fun e' fail => by
        rw [(raises s b e').2 fail] at hb
        cases hb
      simp [ok_bind, ih, isGood]

end

/-! ## The inner loop -/

theorem strOf_eq_some {x : PyValue} {s : PyStr} (h : strOf x = some s) : x = .str s := by
  cases x <;> simp_all [strOf]

theorem asStr_of_strOf_none {x : PyValue} (h : strOf x = none) (attr : String) :
    x.asStr attr = .error (.attributeError x.typeName attr) := by
  cases x <;> simp_all [strOf, PyValue.asStr]

theorem addDep_error_iff (impPath : PyStr) (g : Graph) (x : PyValue) (e : PyException) :
    addDep impPath g x = .error e ↔ strOf x = none ∧ e = .attributeError x.typeName "startswith" := by
  cases x <;> simp [addDep, PyValue.asStr, strOf, eq_comm]

theorem foldlM_addDep_error_iff (impPath : PyStr) (items : List PyValue) (g : Graph)
    (e : PyException) :
    items.foldlM (addDep impPath) g = .error e ↔
      ∃ pre x post, items = pre ++ x :: post ∧ (∀ y ∈ pre, ∃ s, y = .str s) ∧
        (strOf x = none ∧ e = .attributeError x.typeName "startswith") :=
  foldlM_error_iff (fun y => ∃ s, y = .str s)
    (fun x e => strOf x = none ∧ e = .attributeError x.typeName "startswith")
    (addDep_error_iff impPath) (fun y => by cases y <;> simp [strOf]) items g e

theorem iter_error {v : PyValue} {e : PyException} (h : v.iter = .error e) :
    e = .typeError v.typeName ∧ ∀ items, v.iter ≠ .ok items := by
  cases v <;> simp_all [PyValue.iter]

theorem iter_ok {v : PyValue} {items : List PyValue} (h : v.iter = .ok items) :
    v = .list items ∨ ∀ y ∈ items, ∃ s, y = .str s := by
  cases v with
  | list items' => exact .inl (congrArg PyValue.list (Except.ok.inj h))
  | str s =>
    refine .inr fun y hy => ?_
    rw [← Except.ok.inj h] at hy
    obtain ⟨c, -, rfl⟩ := List.mem_map.1 hy
    exact ⟨[c], rfl⟩
  | dict entries =>
    refine .inr fun y hy => ?_
    rw [← Except.ok.inj h] at hy
    obtain ⟨kv, -, rfl⟩ := List.mem_map.1 hy
    exact ⟨kv.1, rfl⟩
  | _ => cases h

theorem addDeps_error_iff (p : PyStr) (g : Graph) (d : PyValue) (e : PyException) :
    addDeps p g d = .error e ↔
      d.toBool ∧ (∀ items, d.iter ≠ .ok items) ∧ e = .typeError d.typeName ∨
        ∃ pre x post, d = .list (pre ++ x :: post) ∧ (∀ y ∈ pre, ∃ s, y = .str s) ∧
          strOf x = none ∧ e = .attributeError x.typeName "startswith" := by
  unfold addDeps
  by_cases truthy : d.toBool
  · rw [if_pos truthy]
    cases hi : d.iter with
    | error e' =>
      obtain ⟨rfl, notIter⟩ := iter_error hi
      rw [error_bind, Except.error.injEq]
      constructor
      · rintro rfl
        exact .inl ⟨truthy, (fun _ h => by cases h), rfl⟩
      · rintro (⟨-, -, rfl⟩ | ⟨pre, x, post, rfl, -⟩)
        · rfl
        · cases hi
    | ok items =>
      rw [ok_bind, foldlM_addDep_error_iff]
      have iterable : ¬∀ items', (.ok items : Except PyException (List PyValue)) ≠ .ok items' :=
        fun h => h items rfl
      simp only [iterable, false_and, and_false, false_or]
      rcases iter_ok hi with rfl | strs
      · simp only [PyValue.list.injEq]
      · refine iff_of_false ?_ ?_
        · rintro ⟨pre, x, post, rfl, -, notStr, -⟩
          obtain ⟨s, rfl⟩ := strs x (by simp)
          cases notStr
        · rintro ⟨pre, x, post, rfl, -, notStr, -⟩
          obtain rfl : pre ++ x :: post = items := Except.ok.inj hi
          obtain ⟨s, rfl⟩ := strs x (by simp)
          cases notStr
  · rw [if_neg truthy]
    refine iff_of_false (fun h => by cases h) ?_
    rintro (⟨truthy', -⟩ | ⟨pre, x, post, rfl, -⟩)
    · exact truthy truthy'
    · simp [PyValue.toBool] at truthy

/-! ## The body of the outer loop -/

theorem Raises.addPackage_error {v : PyValue} {e : PyException} (h : Raises v e) (g : Graph) :
    addPackage g v = .error e := by
  cases h with
  | notObject notDict =>
    cases v
    case dict entries => exact absurd rfl (notDict entries)
    all_goals rfl
  | importPathNotStr hp hs =>
    simp only [addPackage, PyValue.get, hp, Option.getD_some, ok_bind, asStr_of_strOf_none hs,
      error_bind]
  | depsNotIterable hp scope hd truthy notIter =>
    simp only [addPackage, PyValue.get, hp, hd, Option.getD_some, PyValue.asStr, ok_bind,
      if_pos scope]
    exact (addDeps_error_iff _ g _ _).2 (.inl ⟨truthy, notIter, rfl⟩)
  | depNotStr hp scope hd strs hs =>
    simp only [addPackage, PyValue.get, hp, hd, Option.getD_some, PyValue.asStr, ok_bind,
      if_pos scope]
    exact (addDeps_error_iff _ g _ _).2 (.inr ⟨_, _, _, rfl, strs, hs, rfl⟩)

theorem addPackage_raises {g : Graph} {v : PyValue} {e : PyException}
    (h : addPackage g v = .error e) : Raises v e := by
  cases v with
  | dict entries =>
    unfold addPackage at h
    cases hp : entries.lookup (py "ImportPath") with
    | none =>
      simp only [PyValue.get, hp, Option.getD_none, PyValue.asStr, ok_bind, MODULE_isPrefixOf_nil,
        Bool.false_eq_true, if_false] at h
      cases h
    | some x =>
      cases hs : strOf x with
      | none =>
        simp only [PyValue.get, hp, Option.getD_some, ok_bind, asStr_of_strOf_none hs,
          error_bind, Except.error.injEq] at h
        subst h
        exact .importPathNotStr hp hs
      | some p =>
        obtain rfl := strOf_eq_some hs
        simp only [PyValue.get, hp, Option.getD_some, PyValue.asStr, ok_bind] at h
        split_ifs at h with scope
        · cases hd : entries.lookup (py "Deps") with
          | none =>
            rw [hd, Option.getD_none] at h
            rcases (addDeps_error_iff p g _ e).1 h with ⟨truthy, -⟩ | ⟨pre, x, post, split, -⟩
            · cases truthy
            · simp at split
          | some d =>
            rw [hd, Option.getD_some] at h
            rcases (addDeps_error_iff p g d e).1 h with
              ⟨truthy, notIter, rfl⟩ | ⟨pre, x, post, rfl, strs, notStr, rfl⟩
            · exact .depsNotIterable hp scope hd truthy notIter
            · exact .depNotStr hp scope hd strs notStr
        · cases h
  | _ =>
    simp only [addPackage, PyValue.get, error_bind, Except.error.injEq] at h
    subst h
    exact .notObject fun _ h => by cases h

theorem addPackage_error_iff (g : Graph) (v : PyValue) (e : PyException) :
    addPackage g v = .error e ↔ Raises v e :=
  ⟨addPackage_raises, fun h => h.addPackage_error g⟩

theorem handled_iff_not_raises (v : PyValue) : Handled v ↔ ∀ e, ¬Raises v e := by
  refine ⟨fun handled e raises => ?_, fun fine => ?_⟩
  · have := raises.addPackage_error .empty
    rw [addPackage_of_handled handled] at this
    cases this
  · cases hv : addPackage .empty v with
    | ok g => exact (addPackage_ok_iff .empty v).1 ⟨g, hv⟩
    | error e => exact absurd (addPackage_raises hv) (fine e)

theorem foldlM_addPackage_error (packages : List PyValue) (g : Graph) (e : PyException) :
    packages.foldlM addPackage g = .error e ↔
      ∃ pre v post, packages = pre ++ v :: post ∧ (∀ w ∈ pre, Handled w) ∧ Raises v e :=
  foldlM_error_iff Handled Raises addPackage_error_iff handled_iff_not_raises packages g e

end GenDepsMd.Main
