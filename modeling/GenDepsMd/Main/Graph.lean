import Mathlib.Data.List.AList
import Mathlib.Data.Finset.Sort
import GenDepsMd.Python.Value

/-!
# The dependency graph `main` builds

`main` files every dependency of a package of the module in one of three `defaultdict(set)`s:
internal, third-party or standard library. `addEdge` is the body of the inner loop once the
dependency is known to be a `str`; `addPackage` the body of the outer loop, with every place the
code can raise on a value `go list` would never write.
-/

namespace GenDepsMd.Main

abbrev SetDict := AList fun _ : PyStr => Finset PyStr

namespace SetDict

/-- `d[k].add(x)`: a missing key first gets an empty set. -/
def add (d : SetDict) (k x : PyStr) : SetDict :=
  d.insert k (insert x ((d.lookup k).getD ∅))

/-- `d.get(k, set())`. -/
def get (d : SetDict) (k : PyStr) : Finset PyStr := (d.lookup k).getD ∅

@[simp] theorem get_empty (k : PyStr) : (∅ : SetDict).get k = ∅ := rfl

@[simp] theorem get_add (d : SetDict) (k x q : PyStr) :
    (d.add k x).get q = if q = k then insert x (d.get k) else d.get q := by
  unfold get add
  split_ifs with h
  · subst h
    simp [AList.lookup_insert]
  · simp [AList.lookup_insert_ne h]

@[simp] theorem mem_add (d : SetDict) (k x q : PyStr) : q ∈ d.add k x ↔ q = k ∨ q ∈ d :=
  AList.mem_insert _

end SetDict

def MODULE : PyStr := py "github.com/example/ktl"

theorem MODULE_isPrefixOf_nil : MODULE.isPrefixOf (py "") = false := rfl

structure Graph where
  internal : SetDict
  stdlib : SetDict
  thirdParty : SetDict

def Graph.empty : Graph := ⟨∅, ∅, ∅⟩

/-- `dep.split("/", 1)[0]`. -/
def firstSegment (dep : PyStr) : PyStr := dep.takeWhile (· ≠ toCodePoint '/')

/-- The body of `for dep in ...` for a `dep` that is a `str`. -/
def addEdge (impPath : PyStr) (g : Graph) (dep : PyStr) : Graph :=
  if MODULE.isPrefixOf dep then
    if dep ≠ impPath then { g with internal := g.internal.add impPath dep } else g
  else
    -- Heuristic: third-party deps have a dot in the first path segment.
    if toCodePoint '.' ∈ firstSegment dep then { g with thirdParty := g.thirdParty.add impPath dep }
    else { g with stdlib := g.stdlib.add impPath dep }

def addDep (impPath : PyStr) (g : Graph) (dep : PyValue) : Except PyException Graph := do
  let dep ← dep.asStr "startswith"
  pure (addEdge impPath g dep)

/-- `for dep in deps or []`. -/
def addDeps (impPath : PyStr) (g : Graph) (deps : PyValue) : Except PyException Graph := do
  let deps ← (if deps.toBool then deps else .list []).iter
  deps.foldlM (addDep impPath) g

/-- The body of `for pkg in packages`. -/
def addPackage (g : Graph) (pkg : PyValue) : Except PyException Graph := do
  let impPath ← (← pkg.get (py "ImportPath") (.str (py ""))).asStr "startswith"
  if MODULE.isPrefixOf impPath then addDeps impPath g (← pkg.get (py "Deps") (.list []))
  else pure g

def buildGraph (packages : List PyValue) : Except PyException Graph :=
  packages.foldlM addPackage .empty

/-! ## The three maps as one -/

inductive DepKind
  | internal
  | thirdParty
  | stdlib
  deriving DecidableEq

def Graph.map (g : Graph) : DepKind → SetDict
  | .internal => g.internal
  | .thirdParty => g.thirdParty
  | .stdlib => g.stdlib

/-- The map `addEdge` files `dep` of `impPath` in: none for the package itself. -/
def kindOf (impPath dep : PyStr) : Option DepKind :=
  if MODULE.isPrefixOf dep then (if dep ≠ impPath then some .internal else none)
  else if toCodePoint '.' ∈ firstSegment dep then some .thirdParty
  else some .stdlib

theorem addEdge_map (impPath : PyStr) (g : Graph) (dep : PyStr) (k : DepKind) :
    (addEdge impPath g dep).map k =
      if kindOf impPath dep = some k then (g.map k).add impPath dep else g.map k := by
  unfold addEdge kindOf
  cases k <;> split_ifs <;> simp_all [Graph.map]

theorem mem_addEdge_get (impPath : PyStr) (g : Graph) (dep : PyStr) (k : DepKind) (q d : PyStr) :
    d ∈ ((addEdge impPath g dep).map k).get q ↔
      d ∈ (g.map k).get q ∨ (q = impPath ∧ d = dep ∧ kindOf impPath dep = some k) := by
  rw [addEdge_map]
  split_ifs with h <;> by_cases hq : q = impPath <;> simp [h, hq, or_comm]

def Graph.KeysNonempty (g : Graph) : Prop := ∀ k p, p ∈ g.map k ↔ ((g.map k).get p).Nonempty

theorem Graph.keysNonempty_empty : Graph.empty.KeysNonempty := by
  intro k p
  cases k <;> simp [Graph.map, Graph.empty, SetDict.get]

theorem Graph.KeysNonempty.addEdge {g : Graph} (h : g.KeysNonempty) (impPath dep : PyStr) :
    (GenDepsMd.Main.addEdge impPath g dep).KeysNonempty := by
  intro k p
  rw [addEdge_map]
  split_ifs
  · by_cases hp : p = impPath <;> simp [hp, h k p]
  · exact h k p

/-! ## What `main` reads from a value -/

def strOf : PyValue → Option PyStr
  | .str s => some s
  | _ => none

def importPath : PyValue → Option PyStr
  | .dict entries => (entries.lookup (py "ImportPath")).bind strOf
  | _ => none

def depStrings : PyValue → List PyStr
  | .list items => items.filterMap strOf
  | .str s => s.map fun c => [c]
  | .dict entries => entries.map Prod.fst
  | _ => []

def deps : PyValue → List PyStr
  | .dict entries => depStrings ((entries.lookup (py "Deps")).getD (.list []))
  | _ => []

def addRecord (g : Graph) (v : PyValue) : Graph :=
  match importPath v with
  | some p => if MODULE.isPrefixOf p then (deps v).foldl (addEdge p) g else g
  | none => g

def DepsHandled : PyValue → Prop
  | .list items => ∀ x ∈ items, ∃ s, x = .str s
  | .str _ => True
  | .dict _ => True
  | v => v.toBool = false

def Handled : PyValue → Prop
  | .dict entries =>
    match entries.lookup (py "ImportPath") with
    | none => True
    | some (.str p) =>
      MODULE.isPrefixOf p → DepsHandled ((entries.lookup (py "Deps")).getD (.list []))
    | some _ => False
  | _ => False

def WellFormed (v : PyValue) : Prop :=
  ∃ entries, v = .dict entries ∧
    (∀ x ∈ entries.lookup (py "ImportPath"), ∃ p, x = .str p) ∧
    (∀ x ∈ entries.lookup (py "Deps"), x = .none ∨ ∃ ds : List PyStr, x = .list (ds.map .str))

theorem WellFormed.handled {v : PyValue} (wf : WellFormed v) : Handled v := by
  obtain ⟨entries, rfl, paths, depLists⟩ := wf
  simp only [Handled]
  split
  · trivial
  · intro _
    cases hd : entries.lookup (py "Deps") with
    | none => simp [DepsHandled]
    | some x =>
      rcases depLists x hd with rfl | ⟨ds, rfl⟩
      · rfl
      · simp [DepsHandled]
  · rename_i x notStr hx
    obtain ⟨p, rfl⟩ := paths x hx
    exact notStr p rfl

def record (p : PyStr) (ds : List PyStr) : PyValue :=
  .dict [(py "ImportPath", .str p), (py "Deps", .list (ds.map .str))]

theorem record_wellFormed (p : PyStr) (ds : List PyStr) : WellFormed (record p ds) :=
  ⟨_, rfl, fun _ hx => ⟨p, (Option.some.inj (Option.mem_def.1 hx)).symm⟩,
    fun _ hx => .inr ⟨ds, (Option.some.inj (Option.mem_def.1 hx)).symm⟩⟩

theorem foldlM_addDep (impPath : PyStr) (ds : List PyStr) (g : Graph) :
    (ds.map PyValue.str).foldlM (addDep impPath) g = .ok (ds.foldl (addEdge impPath) g) := by
  induction ds generalizing g with
  | nil => rfl
  | cons d ds ih => exact ih _

theorem foldlM_addDep_ok_iff (impPath : PyStr) (items : List PyValue) (g : Graph) :
    (∃ g', items.foldlM (addDep impPath) g = .ok g') ↔ ∀ x ∈ items, ∃ s, x = .str s := by
  induction items generalizing g with
  | nil => exact iff_of_true ⟨g, rfl⟩ (by simp)
  | cons x items ih =>
    cases x with
    | str s => simpa [addDep, PyValue.asStr] using ih _
    | _ => simp [addDep, PyValue.asStr]

theorem map_str_filterMap {items : List PyValue} (h : ∀ x ∈ items, ∃ s, x = .str s) :
    (items.filterMap strOf).map .str = items := by
  induction items with
  | nil => rfl
  | cons x items ih =>
    obtain ⟨s, rfl⟩ := h x (.head _)
    simp [strOf, ih fun y hy => h y (.tail _ hy)]

theorem addDeps_of_handled (impPath : PyStr) (g : Graph) {x : PyValue} (h : DepsHandled x) :
    addDeps impPath g x = .ok ((depStrings x).foldl (addEdge impPath) g) := by
  unfold addDeps
  cases x with
  | list items =>
    rw [← foldlM_addDep, depStrings, map_str_filterMap h]
    cases items <;> rfl
  | str s =>
    rw [← foldlM_addDep]
    cases s with
    | nil => rfl
    | cons c s => simp [PyValue.toBool, PyValue.iter, depStrings, Function.comp_def]
  | dict entries =>
    rw [← foldlM_addDep]
    cases entries with
    | nil => rfl
    | cons e entries => simp [PyValue.toBool, PyValue.iter, depStrings, Function.comp_def]
  | _ =>
    simp_all [DepsHandled, depStrings, PyValue.iter]
    rfl

theorem addDeps_ok_iff (impPath : PyStr) (g : Graph) (x : PyValue) :
    (∃ g', addDeps impPath g x = .ok g') ↔ DepsHandled x := by
  refine ⟨fun ⟨g', h⟩ => ?_, fun h => ⟨_, addDeps_of_handled impPath g h⟩⟩
  unfold addDeps at h
  cases x with
  | list items =>
    cases items with
    | nil => simp [DepsHandled]
    | cons y ys => exact (foldlM_addDep_ok_iff impPath _ g).1 ⟨g', h⟩
  | str | dict => trivial
  | _ => 
    simp only [DepsHandled]
    revert h
    split <;> simp_all [PyValue.iter]

theorem addPackage_of_handled {v : PyValue} (h : Handled v) (g : Graph) :
    addPackage g v = .ok (addRecord g v) := by
  match v, h with
  | .dict entries, h =>
    simp only [Handled] at h
    unfold addPackage addRecord importPath deps
    cases hp : entries.lookup (py "ImportPath") with
    | none =>
      simp only [PyValue.get, hp, Option.getD_none, PyValue.asStr, ok_bind, MODULE_isPrefixOf_nil]
      rfl
    | some x =>
      rw [hp] at h
      cases x with
      | str p =>
        simp only [PyValue.get, hp, Option.getD_some, PyValue.asStr, ok_bind, Option.some_bind,
          strOf]
        by_cases scope : MODULE.isPrefixOf p
        · rw [if_pos scope, if_pos scope]
          exact addDeps_of_handled p g (h scope)
        · rw [if_neg scope, if_neg scope]
          rfl
      | _ => exact h.elim

theorem addPackage_ok_iff (g : Graph) (v : PyValue) :
    (∃ g', addPackage g v = .ok g') ↔ Handled v := by
  refine ⟨fun ⟨g', h⟩ => ?_, fun h => ⟨_, addPackage_of_handled h g⟩⟩
  cases v with
  | dict entries =>
    simp only [Handled]
    unfold addPackage at h
    cases hp : entries.lookup (py "ImportPath") with
    | none => trivial
    | some x =>
      cases x with
      | str p =>
        intro scope
        simp only [PyValue.get, hp, Option.getD_some, PyValue.asStr, ok_bind, if_pos scope] at h
        exact (addDeps_ok_iff p g _).1 ⟨g', h⟩
      | _ => simp [PyValue.get, hp, PyValue.asStr] at h
  | _ => simp [addPackage, PyValue.get] at h

/-! ## The loops -/

def Declares (packages : List PyValue) (p d : PyStr) : Prop :=
  ∃ v ∈ packages, importPath v = some p ∧ d ∈ deps v

theorem foldlM_addPackage {packages : List PyValue} (handled : ∀ v ∈ packages, Handled v)
    (g : Graph) : packages.foldlM addPackage g = .ok (packages.foldl addRecord g) := by
  induction packages generalizing g with
  | nil => rfl
  | cons v packages ih =>
    rw [List.foldlM_cons, addPackage_of_handled (handled v (.head _)), ok_bind, List.foldl_cons]
    exact ih (fun w hw => handled w (.tail v hw)) _

theorem foldlM_addPackage_ok_iff (packages : List PyValue) (g : Graph) :
    (∃ g', packages.foldlM addPackage g = .ok g') ↔ ∀ v ∈ packages, Handled v := by
  induction packages generalizing g with
  | nil => exact iff_of_true ⟨g, rfl⟩ (by simp)
  | cons v packages ih =>
    rw [List.foldlM_cons, List.forall_mem_cons, ← addPackage_ok_iff g v]
    constructor
    · rintro ⟨g', h⟩
      obtain ⟨g₁, first, rest⟩ := bind_eq_ok.1 h
      exact ⟨⟨g₁, first⟩, (ih g₁).1 ⟨g', rest⟩⟩
    · rintro ⟨⟨g₁, first⟩, rest⟩
      rw [first, ok_bind]
      exact (ih g₁).2 rest

theorem mem_foldl_addEdge_get (impPath : PyStr) (ds : List PyStr) (g : Graph) (k : DepKind)
    (q d : PyStr) :
    d ∈ ((ds.foldl (addEdge impPath) g).map k).get q ↔
      d ∈ (g.map k).get q ∨ (q = impPath ∧ d ∈ ds ∧ kindOf impPath d = some k) := by
  induction ds generalizing g with
  | nil => simp
  | cons e ds ih =>
    rw [List.foldl_cons, ih, mem_addEdge_get]
    aesop

theorem mem_addRecord_get (g : Graph) (v : PyValue) (k : DepKind) (q d : PyStr) :
    d ∈ ((addRecord g v).map k).get q ↔ d ∈ (g.map k).get q ∨
      (importPath v = some q ∧ MODULE.isPrefixOf q ∧ d ∈ deps v ∧ kindOf q d = some k) := by
  unfold addRecord
  cases hv : importPath v with
  | none => simp
  | some p =>
    by_cases scope : MODULE.isPrefixOf p
    · simp only [if_pos scope, mem_foldl_addEdge_get]
      aesop
    · simp only [if_neg scope]
      aesop

theorem mem_foldl_addRecord_get (packages : List PyValue) (g : Graph) (k : DepKind) (q d : PyStr) :
    d ∈ ((packages.foldl addRecord g).map k).get q ↔ d ∈ (g.map k).get q ∨
      (MODULE.isPrefixOf q ∧ Declares packages q d ∧ kindOf q d = some k) := by
  induction packages generalizing g with
  | nil => simp [Declares]
  | cons v packages ih =>
    rw [List.foldl_cons, ih, mem_addRecord_get]
    simp only [Declares, List.mem_cons]
    aesop

theorem Graph.KeysNonempty.addRecord {g : Graph} (h : g.KeysNonempty) (v : PyValue) :
    (GenDepsMd.Main.addRecord g v).KeysNonempty := by
  unfold GenDepsMd.Main.addRecord
  split
  · split
    · induction deps v generalizing g with
      | nil => exact h
      | cons d ds ih => exact ih (h.addEdge _ d)
    · exact h
  · exact h

theorem buildGraph_spec {packages : List PyValue} (handled : ∀ v ∈ packages, Handled v) :
    ∃ g, buildGraph packages = .ok g ∧ g.KeysNonempty ∧
      ∀ k p d, d ∈ (g.map k).get p ↔
        MODULE.isPrefixOf p ∧ Declares packages p d ∧ kindOf p d = some k := by
  refine ⟨_, foldlM_addPackage handled _, ?_, fun k p d => ?_⟩
  · have keys : ∀ g : Graph, g.KeysNonempty → (packages.foldl addRecord g).KeysNonempty := by
      intro g h
      induction packages generalizing g with
      | nil => exact h
      | cons v packages ih => exact ih (fun w hw => handled w (.tail v hw)) _ (h.addRecord v)
    exact keys _ Graph.keysNonempty_empty
  · rw [mem_foldl_addRecord_get]
    cases k <;> simp [Graph.empty, Graph.map]

theorem kindOf_eq_none_iff {p d : PyStr} (scope : MODULE.isPrefixOf p) :
    kindOf p d = none ↔ d = p := by
  unfold kindOf
  by_cases internal : MODULE.isPrefixOf d
  · simp [internal]
  · have : d ≠ p := by rintro rfl; exact internal scope
    simp [internal, this]
    split_ifs <;> simp

/-! ## What the maps hold -/

structure Partition (packages : List PyValue) (g : Graph) (p : PyStr) : Prop where
  disjoint_internal_thirdParty : Disjoint (g.internal.get p) (g.thirdParty.get p)
  disjoint_internal_stdlib : Disjoint (g.internal.get p) (g.stdlib.get p)
  disjoint_thirdParty_stdlib : Disjoint (g.thirdParty.get p) (g.stdlib.get p)
  not_mem_internal : p ∉ g.internal.get p
  not_mem_thirdParty : p ∉ g.thirdParty.get p
  not_mem_stdlib : p ∉ g.stdlib.get p
  mem_union : ∀ d, d ∈ g.internal.get p ∪ g.thirdParty.get p ∪ g.stdlib.get p ↔
    (MODULE.isPrefixOf p ∧ Declares packages p d) ∧ d ≠ p

theorem buildGraph_partition {packages : List PyValue} (wf : ∀ v ∈ packages, WellFormed v) :
    ∃ g, buildGraph packages = .ok g ∧ ∀ p, Partition packages g p := by
  obtain ⟨g, build, -, mem⟩ := buildGraph_spec fun v hv => (wf v hv).handled
  refine ⟨g, build, fun p => ?_⟩
  have internal : ∀ d, d ∈ g.internal.get p ↔ _ := mem .internal p
  have thirdParty : ∀ d, d ∈ g.thirdParty.get p ↔ _ := mem .thirdParty p
  have stdlib : ∀ d, d ∈ g.stdlib.get p ↔ _ := mem .stdlib p
  have self : ∀ k, p ∉ (g.map k).get p := fun k h => by
    obtain ⟨scope, -, kind⟩ := (mem k p p).1 h
    simp [(kindOf_eq_none_iff scope).2 rfl] at kind
  refine ⟨?_, ?_, ?_, self .internal, self .thirdParty, self .stdlib, fun d => ?_⟩
  all_goals simp only [Finset.disjoint_left, Finset.mem_union, internal, thirdParty, stdlib]
  · aesop
  · aesop
  · aesop
  · constructor
    · rintro ((⟨scope, declared, kind⟩ | ⟨scope, declared, kind⟩) | ⟨scope, declared, kind⟩) <;>
        exact ⟨⟨scope, declared⟩, fun h => by simp [(kindOf_eq_none_iff scope).2 h] at kind⟩
    · rintro ⟨⟨scope, declared⟩, ne⟩
      obtain ⟨k, kind⟩ := Option.ne_none_iff_exists'.1 (mt (kindOf_eq_none_iff scope).1 ne)
      cases k <;> simp [scope, declared, kind]

theorem buildGraph_partition_self_dep :
    ∃ g, buildGraph [record MODULE [py "fmt", MODULE]] = .ok g ∧
      ∀ p, Partition [record MODULE [py "fmt", MODULE]] g p :=
  buildGraph_partition (by simpa using record_wellFormed _ _)

def UnderModule (x : PyStr) : Prop := x = MODULE ∨ (MODULE ++ py "/").isPrefixOf x

/-- `main` tests scope and internal dependencies with a bare `startswith(MODULE)`. -/
theorem buildGraph_prefix_without_boundary :
    ∃ g, buildGraph [.dict [(py "ImportPath", .str (MODULE ++ py "2/x")),
        (py "Deps", .list [.str (py "fmt")])]] = .ok g ∧
      MODULE ++ py "2/x" ∈ g.stdlib ∧ ¬UnderModule (MODULE ++ py "2/x") :=
  ⟨_, rfl, by decide, by unfold UnderModule; decide⟩

structure Classified (packages : List PyValue) (g : Graph) : Prop where
  keys_prefixed : ∀ p, p ∈ g.internal ∨ p ∈ g.thirdParty ∨ p ∈ g.stdlib → MODULE.isPrefixOf p
  classes : ∀ p d, MODULE.isPrefixOf p → Declares packages p d → d ≠ p →
    (d ∈ g.internal.get p ↔ MODULE.isPrefixOf d) ∧
    (d ∈ g.thirdParty.get p ↔ ¬MODULE.isPrefixOf d ∧ toCodePoint '.' ∈ firstSegment d) ∧
    (d ∈ g.stdlib.get p ↔ ¬MODULE.isPrefixOf d ∧ toCodePoint '.' ∉ firstSegment d)

theorem buildGraph_classifies {packages : List PyValue} (wf : ∀ v ∈ packages, WellFormed v) :
    ∃ g, buildGraph packages = .ok g ∧ Classified packages g := by
  obtain ⟨g, build, keys, mem⟩ := buildGraph_spec fun v hv => (wf v hv).handled
  refine ⟨g, build, fun p key => ?_, fun p d scope declared ne => ?_⟩
  · have inScope : ∀ k, p ∈ g.map k → MODULE.isPrefixOf p := fun k h => by
      obtain ⟨d, hd⟩ := (keys k p).1 h
      exact ((mem k p d).1 hd).1
    rcases key with h | h | h
    exacts [inScope .internal h, inScope .thirdParty h, inScope .stdlib h]
  · have internal : d ∈ g.internal.get p ↔ _ := mem .internal p d
    have thirdParty : d ∈ g.thirdParty.get p ↔ _ := mem .thirdParty p d
    have stdlib : d ∈ g.stdlib.get p ↔ _ := mem .stdlib p d
    simp only [internal, thirdParty, stdlib, scope, declared, true_and, kindOf]
    split_ifs <;> simp_all

theorem buildGraph_classifies_two_records :
    ∃ g, buildGraph [record MODULE [py "fmt", py "github.com/x/y"],
      record (MODULE ++ py "2/x") [py "os", MODULE]] = .ok g ∧
      Classified [record MODULE [py "fmt", py "github.com/x/y"],
        record (MODULE ++ py "2/x") [py "os", MODULE]] g :=
  buildGraph_classifies (by simpa using ⟨record_wellFormed _ _, record_wellFormed _ _⟩)

end GenDepsMd.Main
