import GenDepsMd.Main.Raises
import GenDepsMd.Python.Utf8
import GenDepsMd.GoList.Concat

namespace GenDepsMd.Main

/-- `sorted(set(list(...keys()) + ...))`. -/
def pkgs (g : Graph) : List PyStr :=
  (g.internal.keys ++ g.stdlib.keys ++ g.thirdParty.keys).toFinset.sort (· ≤ ·)

def header : List PyStr :=
  ["# Dependency Map (Generated)\n", "\n", "This file is generated. Do not edit by hand.\n", "\n",
    "Regenerate with:\n", "\n", "```bash\n", "make deps\n", "```\n", "\n"].map py

def pyInt (n : Nat) : PyStr := py (toString n)

def depLine (d : PyStr) : PyStr := py "- `" ++ d ++ py "`\n"

/-- What the loop `for p in pkgs` appends for `p`. -/
def packageLines (g : Graph) (p : PyStr) : List PyStr :=
  let internal := (g.internal.get p).sort (· ≤ ·)
  let stdlib := (g.stdlib.get p).sort (· ≤ ·)
  let thirdParty := (g.thirdParty.get p).sort (· ≤ ·)
  [py "## `" ++ p ++ py "`\n\n", py "**Internal deps**\n\n"] ++
    (if internal ≠ [] then internal.map depLine else [py "- (none)\n"]) ++
    [py "\n", py "**Third-party deps**\n\n"] ++
    (if thirdParty ≠ [] then
      let cap := 80
      (thirdParty.take cap).map depLine ++
        if thirdParty.length > cap then
          [py "- ... (" ++ pyInt (thirdParty.length - cap) ++ py " more)\n"]
        else []
    else [py "- (none)\n"]) ++
    [py "\n", py "**Stdlib deps**\n\n"] ++
    (if stdlib ≠ [] then [py "- " ++ pyInt stdlib.length ++ py " packages\n"]
    else [py "- 0 packages\n"]) ++
    [py "\n"]

/-- `"".join(out)`. -/
def report (g : Graph) : PyStr := (header ++ (pkgs g).flatMap (packageLines g)).flatten

def buildAndRender (packages : List PyValue) : Except PyException PyStr := do
  let g ← buildGraph packages
  pure (report g)

theorem buildAndRender_of_buildGraph {packages : List PyValue} {g : Graph}
    (build : buildGraph packages = .ok g) : buildAndRender packages = .ok (report g) := by
  rw [buildAndRender, build]
  rfl

def isSurrogate (c : CodePoint) : Bool := 0xD800 ≤ c.val && c.val ≤ 0xDFFF

inductive MainError
  | decode (e : Json.RawDecodeError)
  | raised (e : PyException)
  | unicodeEncodeError (start stop : Nat)
  deriving DecidableEq, Repr

/-- `print(text, end="")` on a standard output that encodes UTF-8 strictly. The text is encoded
whole before anything is written, and its first run of surrogates raises `UnicodeEncodeError`
with the run's `start` and `end`. -/
def print (text : PyStr) : Except MainError (List Nat) :=
  let start := text.findIdx isSurrogate
  if start < text.length then
    .error (.unicodeEncodeError start (start + ((text.drop start).takeWhile isSurrogate).length))
  else .ok (utf8 text)

/-- `main()`, from what `go list` writes on standard output to the bytes it prints. -/
def main (limit : Nat) (stdout : List Char) : Except MainError (List Nat) := do
  let packages ← (GoList.runGoList limit stdout).mapError .decode
  let out ← (buildAndRender packages).mapError .raised
  print out

/-! ## What the report depends on -/

theorem pkgs_congr {g₁ g₂ : Graph} (keys : ∀ k p, p ∈ g₁.map k ↔ p ∈ g₂.map k) :
    pkgs g₁ = pkgs g₂ := by
  unfold pkgs
  congr 1
  ext p
  simp only [List.mem_toFinset, List.mem_append, ← AList.mem_keys]
  exact or_congr (or_congr (keys .internal p) (keys .stdlib p)) (keys .thirdParty p)

theorem report_congr {g₁ g₂ : Graph} (keys : ∀ k p, p ∈ g₁.map k ↔ p ∈ g₂.map k)
    (gets : ∀ k p, (g₁.map k).get p = (g₂.map k).get p) : report g₁ = report g₂ := by
  have lines : packageLines g₁ = packageLines g₂ := funext fun p => by
    have internal : g₁.internal.get p = g₂.internal.get p := gets .internal p
    have thirdParty : g₁.thirdParty.get p = g₂.thirdParty.get p := gets .thirdParty p
    have stdlib : g₁.stdlib.get p = g₂.stdlib.get p := gets .stdlib p
    simp only [packageLines, internal, thirdParty, stdlib]
  rw [report, report, pkgs_congr keys, lines]

theorem buildAndRender_eq_of_declares {R₁ R₂ : List PyValue} (handled₁ : ∀ v ∈ R₁, Handled v)
    (handled₂ : ∀ v ∈ R₂, Handled v) (pairs : ∀ p d, Declares R₁ p d ↔ Declares R₂ p d) :
    buildAndRender R₁ = buildAndRender R₂ := by
  obtain ⟨g₁, build₁, keys₁, mem₁⟩ := buildGraph_spec handled₁
  obtain ⟨g₂, build₂, keys₂, mem₂⟩ := buildGraph_spec handled₂
  have gets : ∀ k p, (g₁.map k).get p = (g₂.map k).get p := fun k p =>
    Finset.ext fun d => by rw [mem₁, mem₂, pairs]
  rw [buildAndRender_of_buildGraph build₁, buildAndRender_of_buildGraph build₂,
    report_congr (fun k p => by rw [keys₁, keys₂, gets]) gets]

theorem buildAndRender_eq_of_same_pairs {R₁ R₂ : List PyValue}
    (wf₁ : ∀ v ∈ R₁, WellFormed v) (wf₂ : ∀ v ∈ R₂, WellFormed v)
    (pairs : ∀ p d, Declares R₁ p d ↔ Declares R₂ p d) :
    buildAndRender R₁ = buildAndRender R₂ :=
  buildAndRender_eq_of_declares (fun v hv => (wf₁ v hv).handled) (fun v hv => (wf₂ v hv).handled)
    pairs

theorem buildAndRender_eq_of_same_pairs_reversed :
    buildAndRender [record MODULE [py "fmt"], record (MODULE ++ py "/cmd") [py "os", MODULE]] =
      buildAndRender [record (MODULE ++ py "/cmd") [py "os", MODULE], record MODULE [py "fmt"]] :=
  buildAndRender_eq_of_same_pairs (by simpa using ⟨record_wellFormed _ _, record_wellFormed _ _⟩)
    (by simpa using ⟨record_wellFormed _ _, record_wellFormed _ _⟩)
    (fun p d => by simp only [Declares, List.mem_cons, List.mem_singleton]; aesop)

/-- A package of the module that imports nothing, for which `go list` writes no `Deps`, gets no
section: `pkgs` holds only packages with a dependency filed. -/
theorem buildAndRender_leaf_package :
    buildAndRender [.dict [(py "ImportPath", .str (MODULE ++ py "/internal/version"))]] =
      .ok header.flatten := by
  have build : buildGraph [.dict [(py "ImportPath", .str (MODULE ++ py "/internal/version"))]] =
      .ok .empty := rfl
  simp [buildAndRender, build, report, pkgs, Graph.empty]

/-! ## Which packages get a section -/

theorem mem_pkgs (g : Graph) (p : PyStr) : p ∈ pkgs g ↔ ∃ k, p ∈ g.map k := by
  simp only [pkgs, Finset.mem_sort, List.mem_toFinset, List.mem_append, ← AList.mem_keys]
  constructor
  · rintro ((h | h) | h)
    exacts [⟨.internal, h⟩, ⟨.stdlib, h⟩, ⟨.thirdParty, h⟩]
  · rintro ⟨k, h⟩
    cases k <;> simp_all [Graph.map]

theorem pkgs_iff {packages : List PyValue} {g : Graph} (keys : g.KeysNonempty)
    (mem : ∀ k p d, d ∈ (g.map k).get p ↔
      MODULE.isPrefixOf p ∧ Declares packages p d ∧ kindOf p d = some k) (p : PyStr) :
    p ∈ pkgs g ↔ MODULE.isPrefixOf p ∧ ∃ d, d ≠ p ∧ Declares packages p d := by
  simp only [mem_pkgs, keys _ p, Finset.Nonempty, mem]
  constructor
  · rintro ⟨k, d, scope, declares, kind⟩
    refine ⟨scope, d, fun self => ?_, declares⟩
    rw [(kindOf_eq_none_iff scope).2 self] at kind
    cases kind
  · rintro ⟨scope, d, other, declares⟩
    obtain ⟨k, kind⟩ := Option.ne_none_iff_exists'.1 (mt (kindOf_eq_none_iff scope).1 other)
    exact ⟨k, d, scope, declares, kind⟩

/-- The packages with a section are those of the module whose records list a dependency other
than the package itself. -/
theorem buildGraph_pkgs {packages : List PyValue} (handled : ∀ v ∈ packages, Handled v) :
    ∃ g, buildGraph packages = .ok g ∧
      ∀ p, p ∈ pkgs g ↔ MODULE.isPrefixOf p ∧ ∃ d, d ≠ p ∧ Declares packages p d := by
  obtain ⟨g, build, keys, mem⟩ := buildGraph_spec handled
  exact ⟨g, build, pkgs_iff keys mem⟩

theorem buildGraph_pkgs_two_records :
    ∃ g, buildGraph [record MODULE [py "fmt"], record (MODULE ++ py "/leaf") []] = .ok g ∧
      ∀ p, p ∈ pkgs g ↔ MODULE.isPrefixOf p ∧ ∃ d, d ≠ p ∧
        Declares [record MODULE [py "fmt"], record (MODULE ++ py "/leaf") []] p d :=
  buildGraph_pkgs (by simpa using ⟨(record_wellFormed _ _).handled, (record_wellFormed _ _).handled⟩)

/-! ## Values `go list` would not write -/

/-- `pkg.get` on a value that is not an object. -/
theorem buildAndRender_list_value :
    buildAndRender [.list []] = .error (.attributeError "list" "get") := rfl

theorem buildAndRender_ok_iff (packages : List PyValue) :
    (∃ out, buildAndRender packages = .ok out) ↔ ∀ v ∈ packages, Handled v := by
  rw [← foldlM_addPackage_ok_iff packages .empty]
  unfold buildAndRender buildGraph
  constructor
  · rintro ⟨out, h⟩
    obtain ⟨g, build, -⟩ := bind_eq_ok.1 h
    exact ⟨g, build⟩
  · rintro ⟨g, build⟩
    exact ⟨report g, buildAndRender_of_buildGraph build⟩

/-- `main` raises what the first record it cannot read raises, by the check that fails there: the
records before it are read, and those after it are never looked at. -/
theorem buildAndRender_error (packages : List PyValue) (e : PyException) :
    buildAndRender packages = .error e ↔
      ∃ pre v post, packages = pre ++ v :: post ∧ (∀ w ∈ pre, Handled w) ∧ Raises v e := by
  rw [← foldlM_addPackage_error packages .empty e]
  unfold buildAndRender buildGraph
  cases packages.foldlM addPackage .empty <;> simp

theorem buildAndRender_handled (packages : List PyValue) :
    ((∃ out, buildAndRender packages = .ok out) ↔ ∀ v ∈ packages, Handled v) ∧
    (∀ g v, Handled v → (∀ p, importPath v = some p → ¬MODULE.isPrefixOf p) →
      addPackage g v = .ok g) ∧
    (∀ g v p, Handled v → importPath v = some p → MODULE.isPrefixOf p →
      addPackage g v = .ok ((deps v).foldl (addEdge p) g)) := by
  refine ⟨buildAndRender_ok_iff packages, fun g v h outside => ?_, fun g v p h hp scope => ?_⟩
  · rw [addPackage_of_handled h, addRecord]
    split
    · rename_i p hp
      rw [if_neg (outside p hp)]
    · rfl
  · simp only [addPackage_of_handled h, addRecord, hp, if_pos scope]

theorem buildAndRender_handled_records :
    addPackage .empty (record (py "fmt") []) = .ok .empty ∧
    addPackage .empty (record MODULE [py "fmt"]) =
      .ok ((deps (record MODULE [py "fmt"])).foldl (addEdge MODULE) .empty) :=
  ⟨(buildAndRender_handled []).2.1 _ _ (record_wellFormed _ _).handled fun p hp => by
      obtain rfl : py "fmt" = p := Option.some.inj hp
      decide,
    (buildAndRender_handled []).2.2 _ _ _ (record_wellFormed _ _).handled rfl rfl⟩

/-! ## The layout of the report -/

theorem stdlib_line (s : List PyStr) :
    (if s ≠ [] then [py "- " ++ pyInt s.length ++ py " packages\n"] else [py "- 0 packages\n"]) =
      [py "- " ++ pyInt s.length ++ py " packages\n"] := by
  split_ifs with h
  · rfl
  · rw [not_not.1 h]
    rfl

def SectionLayout (g : Graph) (p : PyStr) (lines : List PyStr) : Prop :=
  ∃ internal thirdParty : List PyStr,
    internal.Sorted (· < ·) ∧ (∀ d, d ∈ internal ↔ d ∈ g.internal.get p) ∧
    thirdParty.Sorted (· < ·) ∧ (∀ d, d ∈ thirdParty ↔ d ∈ g.thirdParty.get p) ∧
    thirdParty.length = (g.thirdParty.get p).card ∧
    (∀ d ∈ thirdParty.take 80, ∀ e ∈ thirdParty.drop 80, d < e) ∧
    lines = [py "## `" ++ p ++ py "`\n\n", py "**Internal deps**\n\n"] ++
      (if internal = [] then [py "- (none)\n"] else internal.map depLine) ++
      [py "\n", py "**Third-party deps**\n\n"] ++
      (if thirdParty = [] then [py "- (none)\n"]
      else
        (thirdParty.take 80).map depLine ++
          if 80 < thirdParty.length then
            [py "- ... (" ++ pyInt (thirdParty.length - 80) ++ py " more)\n"]
          else []) ++
      [py "\n", py "**Stdlib deps**\n\n",
        py "- " ++ pyInt (g.stdlib.get p).card ++ py " packages\n", py "\n"]

theorem packageLines_layout (g : Graph) (p : PyStr) : SectionLayout g p (packageLines g p) := by
  have sorted := Finset.sort_sorted_lt (g.thirdParty.get p)
  refine ⟨_, _, Finset.sort_sorted_lt _, fun d => Finset.mem_sort _, sorted,
    fun d => Finset.mem_sort _, Finset.length_sort _,
    fun d hd e he => sorted.rel_of_mem_take_of_mem_drop hd he, ?_⟩
  simp only [packageLines, stdlib_line]
  simp [ite_not]

/-- `main`'s report of well-formed records: the header, then the section of each package of
`pkgs`, in ascending order of code points and so of UTF-8 bytes, each laid out as
`SectionLayout` says. -/
theorem buildAndRender_layout {packages : List PyValue} (wf : ∀ v ∈ packages, WellFormed v) :
    ∃ g, buildGraph packages = .ok g ∧
      buildAndRender packages = .ok (header ++ (pkgs g).flatMap (packageLines g)).flatten ∧
      (pkgs g).Sorted (· < ·) ∧ (∀ p q, utf8 p < utf8 q ↔ p < q) ∧
      (pkgs g).Sorted (fun p q => utf8 p < utf8 q) ∧ ∀ p, SectionLayout g p (packageLines g p) := by
  obtain ⟨g, build, -, -⟩ := buildGraph_spec fun v hv => (wf v hv).handled
  exact ⟨g, build, buildAndRender_of_buildGraph build, Finset.sort_sorted_lt _,
    utf8_lt_iff, (Finset.sort_sorted_lt _).imp utf8_lt_of_lt, packageLines_layout g⟩

theorem buildAndRender_layout_two_packages :
    ∃ g, buildGraph [record MODULE [py "fmt"], record (MODULE ++ py "/cmd") [py "os", MODULE]] =
        .ok g ∧
      buildAndRender [record MODULE [py "fmt"], record (MODULE ++ py "/cmd") [py "os", MODULE]] =
        .ok (header ++ (pkgs g).flatMap (packageLines g)).flatten ∧
      (pkgs g).Sorted (· < ·) ∧ (∀ p q, utf8 p < utf8 q ↔ p < q) ∧
      (pkgs g).Sorted (fun p q => utf8 p < utf8 q) ∧ ∀ p, SectionLayout g p (packageLines g p) :=
  buildAndRender_layout (by simpa using ⟨record_wellFormed _ _, record_wellFormed _ _⟩)

/-! ## The whole program -/

theorem main_of_runGoList {limit : Nat} {stdout : List Char} {packages : List PyValue}
    (h : GoList.runGoList limit stdout = .ok packages) :
    main limit stdout = (buildAndRender packages).mapError .raised >>= print := by
  rw [main, h]
  rfl

theorem buildAndRender_congr {R₁ R₂ : List PyValue} (handled₁ : ∀ v ∈ R₁, Handled v)
    (handled₂ : ∀ v ∈ R₂, Handled v) (same : ∀ v, v ∈ R₁ ↔ v ∈ R₂) :
    buildAndRender R₁ = buildAndRender R₂ :=
  buildAndRender_eq_of_declares handled₁ handled₂ fun p d => by simp only [Declares, same]

/-- `main` prints the same for two outputs of `go list` joined with white space in either order,
and for an output joined with itself as for the output alone, when each output decodes and
`main` can read every record in them. -/
theorem main_append {limit : Nat} {s₁ s₂ w : List Char} {xs₁ xs₂ : List PyValue}
    (first : GoList.runGoList limit s₁ = .ok xs₁) (second : GoList.runGoList limit s₂ = .ok xs₂)
    (handled : ∀ v ∈ xs₁ ++ xs₂, Handled v) (spaces : ∀ c ∈ w, isspace c) (nonempty : w ≠ []) :
    main limit (s₁ ++ w ++ s₂) = main limit (s₂ ++ w ++ s₁) ∧
      main limit (s₁ ++ w ++ s₁) = main limit s₁ := by
  have join : ∀ {a b : List Char} {xa xb : List PyValue}, GoList.runGoList limit a = .ok xa →
      GoList.runGoList limit b = .ok xb → GoList.runGoList limit (a ++ w ++ b) = .ok (xa ++ xb) := by
    intro a b xa xb ha hb
    unfold GoList.runGoList at ha hb ⊢
    rw [GoList.decodeLoop_join ha (Nat.zero_le _) spaces nonempty, hb]
    rfl
  have handled₁ : ∀ v ∈ xs₁, Handled v := fun v hv => handled v (List.mem_append_left _ hv)
  have swap : buildAndRender (xs₁ ++ xs₂) = buildAndRender (xs₂ ++ xs₁) :=
    buildAndRender_congr handled (fun v hv => handled v (by simp_all [or_comm]))
      fun v => by simp [or_comm]
  have twice : buildAndRender (xs₁ ++ xs₁) = buildAndRender xs₁ :=
    buildAndRender_congr (fun v hv => handled₁ v (by simpa using hv)) handled₁ fun v => by simp
  rw [main_of_runGoList (join first second), main_of_runGoList (join second first),
    main_of_runGoList (join first first), main_of_runGoList first, swap, twice]
  exact ⟨rfl, rfl⟩

theorem main_append_two_records :
    main 2 ("\x7b\"ImportPath\":\"github.com/example/ktl\",\"Deps\":[\"fmt\"]\x7d".toList ++ ['\n'] ++
        "\x7b\"ImportPath\":\"github.com/example/ktl/x\",\"Deps\":[\"os\"]\x7d".toList) =
      main 2 ("\x7b\"ImportPath\":\"github.com/example/ktl/x\",\"Deps\":[\"os\"]\x7d".toList ++
        ['\n'] ++ "\x7b\"ImportPath\":\"github.com/example/ktl\",\"Deps\":[\"fmt\"]\x7d".toList) ∧
    main 2 ("\x7b\"ImportPath\":\"github.com/example/ktl\",\"Deps\":[\"fmt\"]\x7d".toList ++ ['\n'] ++
        "\x7b\"ImportPath\":\"github.com/example/ktl\",\"Deps\":[\"fmt\"]\x7d".toList) =
      main 2 "\x7b\"ImportPath\":\"github.com/example/ktl\",\"Deps\":[\"fmt\"]\x7d".toList := by
  have first : GoList.runGoList 2
      "\x7b\"ImportPath\":\"github.com/example/ktl\",\"Deps\":[\"fmt\"]\x7d".toList =
        .ok [record MODULE [py "fmt"]] :=
    GoList.runGoList_of_within (.of_rawDecode (by rfl))
  have second : GoList.runGoList 2
      "\x7b\"ImportPath\":\"github.com/example/ktl/x\",\"Deps\":[\"os\"]\x7d".toList =
        .ok [record (MODULE ++ py "/x") [py "os"]] :=
    GoList.runGoList_of_within (.of_rawDecode (by rfl))
  exact main_append first second
    (by simpa using ⟨(record_wellFormed _ _).handled, (record_wellFormed _ _).handled⟩)
    (by decide) (by simp)

end GenDepsMd.Main
