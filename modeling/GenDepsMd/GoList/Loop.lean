import Mathlib.Data.List.Chain
import Mathlib.Data.List.DropRight
import GenDepsMd.Json.Completeness
import GenDepsMd.Json.Errors
import GenDepsMd.Json.Keys
import GenDepsMd.Json.Append

/-!
# The decoding loop of `run_go_list`

`go list -deps -json` writes its packages as value texts one after the other, and `run_go_list`
reads them back with `raw_decode`, skipping what `str.isspace` holds for in between. Spawning
the subprocess is left out: the loop is a function of the text on standard output, and a
character is read only at an offset the loop has checked against the length. What
`run_go_list` does with the exit status of `go list` is `runGoListProc`.

Every result below follows from what one turn of the loop does (`decodeLoop_done`,
`decodeLoop_next`).
-/

namespace GenDepsMd.GoList
open Json

/-- `while i < len(stdout) and stdout[i].isspace(): i += 1` -/
def skipSpace (s : List Char) (i : Nat) : Nat :=
  if h : i < s.length then
    if isspace s[i] then skipSpace s (i + 1) else i
  else i
termination_by s.length - i

/-! The loop's three branches, read off its fixpoint equation: the equation lemma Lean derives
for `skipSpace` evaluates `isspace` on an unknown character and takes seconds. -/

theorem skipSpace_space {s : List Char} {i : Nat} (h : i < s.length) (space : isspace s[i]) :
    skipSpace s i = skipSpace s (i + 1) := by
  delta skipSpace
  rw [WellFounded.fix_eq, dif_pos h, dif_pos space]

theorem skipSpace_stop {s : List Char} {i : Nat} (h : i < s.length) (stop : ¬isspace s[i]) :
    skipSpace s i = i := by
  delta skipSpace
  rw [WellFounded.fix_eq, dif_pos h, dif_neg stop]

theorem skipSpace_of_le {s : List Char} {i : Nat} (h : s.length ≤ i) : skipSpace s i = i := by
  delta skipSpace
  rw [WellFounded.fix_eq, dif_neg (by omega)]

theorem skipSpace_split (s : List Char) (i : Nat) :
    ∃ w, s.drop i = w ++ s.drop (skipSpace s i) ∧ (∀ c ∈ w, isspace c) ∧ i ≤ skipSpace s i := by
  induction i using skipSpace.induct s with
  | case1 i h space ih =>
    obtain ⟨w, hw, spaces, le⟩ := ih
    rw [skipSpace_space h space]
    refine ⟨s[i] :: w, ?_, ?_, by omega⟩
    · rw [List.drop_eq_getElem_cons h, hw, List.cons_append]
    · simpa [space] using spaces
  | case2 i h stop =>
    rw [skipSpace_stop h stop]
    exact ⟨[], rfl, by simp, le_refl _⟩
  | case3 i h =>
    rw [skipSpace_of_le (Nat.le_of_not_lt h)]
    exact ⟨[], rfl, by simp, le_refl _⟩

theorem le_skipSpace (s : List Char) (i : Nat) : i ≤ skipSpace s i := by
  obtain ⟨-, -, -, le⟩ := skipSpace_split s i
  exact le

theorem skipSpace_stops (s : List Char) (i : Nat) :
    ∀ c ∈ (s.drop (skipSpace s i)).head?, isspace c = false := by
  induction i using skipSpace.induct s with
  | case1 i h space ih => rwa [skipSpace_space h space]
  | case2 i h stop => simpa [skipSpace_stop h stop, List.getElem?_eq_getElem h] using stop
  | case3 i h =>
    have past := Nat.le_of_not_lt h
    simp [skipSpace_of_le past, List.getElem?_eq_none past]

theorem isspace_skipSpace {s : List Char} {i : Nat} (more : skipSpace s i < s.length) :
    isspace s[skipSpace s i] = false :=
  skipSpace_stops s i _ (by simp [more])

theorem getElem_length_append {p r : List Char} {c : Char}
    {h : p.length < (p ++ c :: r).length} : (p ++ c :: r)[p.length] = c := by
  simp [List.getElem_append_right]

theorem skipSpace_append {w r : List Char} (spaces : ∀ c ∈ w, isspace c)
    (stop : ∀ c ∈ r.head?, isspace c = false) (p : List Char) :
    skipSpace (p ++ w ++ r) p.length = p.length + w.length := by
  induction w generalizing p with
  | nil =>
    cases r with
    | nil => simp [skipSpace_of_le]
    | cons c r =>
      rw [List.append_nil, skipSpace_stop (by simp) (by simp [getElem_length_append, stop c rfl])]
      rfl
  | cons c w ih =>
    have space := spaces c (.head _)
    have next := ih (fun d hd => spaces d (.tail c hd)) (p ++ [c])
    rw [skipSpace_space (by simp) (by simpa [getElem_length_append] using space)]
    simp only [List.append_assoc, List.singleton_append, List.cons_append, List.nil_append,
      List.length_append, List.length_singleton] at next
    simp only [List.append_assoc, List.cons_append, List.length_cons, next]
    omega

theorem rawDecode_advances {limit : Nat} {s : List Char} {i j : Nat} {v : PyValue}
    (h : rawDecode limit s i = .ok (v, j)) : i < j ∧ j ≤ s.length := by
  obtain ⟨-, -, -, advance, bound⟩ := rawDecode_sound h
  exact ⟨advance, bound⟩

/-- The outer loop of `run_go_list` from offset `i`, with the packages read so far. -/
def decodeLoop (limit : Nat) (s : List Char) (i : Nat) (packages : List PyValue) :
    Except RawDecodeError (List PyValue) :=
  if i < s.length then
    let i' := skipSpace s i
    if s.length ≤ i' then .ok packages
    else
      match _read : rawDecode limit s i' with
      | .ok (obj, j) => decodeLoop limit s j (packages ++ [obj])
      | .error e => .error e
  else .ok packages
termination_by s.length - i
decreasing_by
  have advance := (rawDecode_advances _read).1
  have := le_skipSpace s i
  omega

/-- `run_go_list` on the text `go list` wrote to its standard output, with `limit` arrays and
objects left before Python's recursion limit when `raw_decode` runs. -/
def runGoList (limit : Nat) (stdout : List Char) : Except RawDecodeError (List PyValue) :=
  decodeLoop limit stdout 0 []

theorem decodeLoop_done {limit : Nat} {s : List Char} {i : Nat} (done : s.length ≤ skipSpace s i)
    (packages : List PyValue) : decodeLoop limit s i packages = .ok packages := by
  rw [decodeLoop]
  simp [done]

theorem decodeLoop_next {limit : Nat} {s : List Char} {i : Nat} (more : skipSpace s i < s.length)
    (packages : List PyValue) :
    decodeLoop limit s i packages = match rawDecode limit s (skipSpace s i) with
      | .ok (obj, j) => decodeLoop limit s j (packages ++ [obj])
      | .error e => .error e := by
  have hi : i < s.length := by
    by_contra h
    rw [skipSpace_of_le (by omega)] at more
    omega
  rw [decodeLoop, if_pos hi]
  simp only [if_neg (Nat.not_le.mpr more)]
  split <;> simp_all

theorem decodeLoop_ne_outOfFuel (limit : Nat) (s : List Char) (i : Nat) (packages : List PyValue) :
    decodeLoop limit s i packages ≠ .error .outOfFuel := by
  induction i, packages using decodeLoop.induct limit s with
  | case1 i packages _ _ done => simp [decodeLoop_done done]
  | case2 i packages _ _ more obj j decode ih =>
    rwa [decodeLoop_next (Nat.lt_of_not_le more), decode]
  | case3 i packages _ _ more e decode =>
    rw [decodeLoop_next (Nat.lt_of_not_le more), decode]
    rintro ⟨⟩
    exact rawDecode_ne_outOfFuel _ _ _ decode
  | case4 i packages outside =>
    simp [decodeLoop_done (show s.length ≤ skipSpace s i by rw [skipSpace_of_le (by omega)]; omega)]

theorem runGoList_ne_outOfFuel (limit : Nat) (stdout : List Char) :
    runGoList limit stdout ≠ .error .outOfFuel :=
  decodeLoop_ne_outOfFuel limit stdout 0 []

/-! ## Streams of values -/

structure Chunk where
  text : List Char
  value : PyValue
  gap : List Char

def stream (lead : List Char) (chunks : List Chunk) : List Char :=
  lead ++ chunks.flatMap fun x => x.text ++ x.gap

@[simp] theorem stream_nil (lead : List Char) : stream lead [] = lead := by
  simp [stream]

@[simp] theorem stream_cons (lead : List Char) (x : Chunk) (chunks : List Chunk) :
    stream lead (x :: chunks) = lead ++ (x.text ++ stream x.gap chunks) := by
  simp [stream]

theorem decodeLoop_factors {limit : Nat} {s : List Char} {i : Nat} {packages xs : List PyValue}
    (h : decodeLoop limit s i packages = .ok xs) :
    ∃ lead chunks, s.drop i = stream lead chunks ∧ (∀ c ∈ lead, isspace c) ∧
      (∀ x ∈ chunks, Within limit x.text x.value ∧ ∀ c ∈ x.gap, isspace c) ∧
      xs = packages ++ chunks.map Chunk.value := by
  induction i, packages using decodeLoop.induct limit s with
  | case1 i packages _ _ done =>
    replace done : s.length ≤ skipSpace s i := done
    rw [decodeLoop_done done] at h
    obtain ⟨w, hw, spaces, -⟩ := skipSpace_split s i
    rw [List.drop_eq_nil_of_le done, List.append_nil] at hw
    exact ⟨w, [], by simpa using hw, spaces, by simp, by simpa using h.symm⟩
  | case2 i packages _ _ more obj j decode ih =>
    replace more : ¬s.length ≤ skipSpace s i := more
    rw [decodeLoop_next (Nat.lt_of_not_le more), decode] at h
    obtain ⟨lead, chunks, hdrop, leadSpaces, texts, rfl⟩ := ih h
    obtain ⟨w, hw, spaces, -⟩ := skipSpace_split s i
    obtain ⟨t, ht, text, -⟩ := rawDecode_sound decode
    exact ⟨w, ⟨t, obj, lead⟩ :: chunks, by rw [hw, ht, hdrop, stream_cons], spaces,
      List.forall_mem_cons.2 ⟨⟨text, leadSpaces⟩, texts⟩, by simp⟩
  | case3 i packages _ _ more e decode =>
    replace more : ¬s.length ≤ skipSpace s i := more
    rw [decodeLoop_next (Nat.lt_of_not_le more), decode] at h
    cases h
  | case4 i packages outside =>
    rw [decodeLoop_done (by rw [skipSpace_of_le (by omega)]; omega)] at h
    exact ⟨[], [], by simp [List.drop_eq_nil_of_le (Nat.le_of_not_lt outside)], by simp, by simp,
      by simpa using h.symm⟩

theorem decodeLoop_error {limit : Nat} {s : List Char} {i : Nat} {packages : List PyValue}
    {e : RawDecodeError} (h : decodeLoop limit s i packages = .error e) :
    ∃ lead chunks j, s.drop i = stream lead chunks ++ s.drop j ∧ (∀ c ∈ lead, isspace c) ∧
      (∀ x ∈ chunks, Within limit x.text x.value ∧ ∀ c ∈ x.gap, isspace c) ∧
      (∀ c ∈ (s.drop j).head?, isspace c = false) ∧ j < s.length ∧
      rawDecode limit s j = .error e := by
  induction i, packages using decodeLoop.induct limit s with
  | case1 i packages _ _ done =>
    replace done : s.length ≤ skipSpace s i := done
    rw [decodeLoop_done done] at h
    cases h
  | case2 i packages _ _ more obj j decode ih =>
    replace more : ¬s.length ≤ skipSpace s i := more
    rw [decodeLoop_next (Nat.lt_of_not_le more), decode] at h
    obtain ⟨lead, chunks, k, hdrop, leadSpaces, texts, stop, within, fail⟩ := ih h
    obtain ⟨w, hw, spaces, -⟩ := skipSpace_split s i
    obtain ⟨t, ht, text, -⟩ := rawDecode_sound decode
    refine ⟨w, ⟨t, obj, lead⟩ :: chunks, k, ?_, spaces,
      List.forall_mem_cons.2 ⟨⟨text, leadSpaces⟩, texts⟩, stop, within, fail⟩
    rw [hw, ht, hdrop, stream_cons]
    simp only [List.append_assoc]
  | case3 i packages _ _ more e' decode =>
    replace more : ¬s.length ≤ skipSpace s i := more
    rw [decodeLoop_next (Nat.lt_of_not_le more), decode] at h
    cases h
    obtain ⟨w, hw, spaces, -⟩ := skipSpace_split s i
    exact ⟨w, [], skipSpace s i, by simpa using hw, spaces, by simp, skipSpace_stops s i,
      Nat.lt_of_not_le more, decode⟩
  | case4 i packages outside =>
    rw [decodeLoop_done (by rw [skipSpace_of_le (by omega)]; omega)] at h
    cases h

theorem numStop_of_isspace {c : Char} (space : isspace c) (r : List Char) : NumStop (c :: r) := by
  rintro d ⟨⟩
  have ne : ∀ x : Char, isspace x = false → c ≠ x := by
    rintro x hx rfl
    simp [hx] at space
  refine ⟨?_, ne '.' rfl, ne 'e' rfl, ne 'E' rfl⟩
  cases digit : c.isDigit
  · rfl
  · have := (isDigit_iff c).mp digit
    simp only [isspace, Bool.or_eq_true, Bool.and_eq_true, decide_eq_true_eq, beq_iff_eq] at space
    omega

theorem decodeLoop_stream {limit : Nat} {lead : List Char} {chunks : List Chunk}
    (leadSpaces : ∀ c ∈ lead, isspace c)
    (texts : ∀ x ∈ chunks, Within limit x.text x.value ∧ ∀ c ∈ x.gap, isspace c)
    (separated : chunks.Chain' fun x y => isNumeral x.value → isNumeral y.value → x.gap ≠ [])
    (p : List Char) (packages : List PyValue) :
    decodeLoop limit (p ++ stream lead chunks) p.length packages =
      .ok (packages ++ chunks.map Chunk.value) := by
  induction chunks generalizing lead p packages with
  | nil =>
    have skip := skipSpace_append leadSpaces
      (show ∀ c ∈ ([] : List Char).head?, isspace c = false by simp) p
    rw [List.append_nil] at skip
    rw [stream_nil, decodeLoop_done (by simp [skip]), List.map_nil, List.append_nil]
  | cons x chunks ih =>
    obtain ⟨text, gapSpaces⟩ := texts x (.head _)
    obtain ⟨c, rest, htext, start, -⟩ := text.text.head
    have skip := skipSpace_append leadSpaces
      (show ∀ d ∈ (x.text ++ stream x.gap chunks).head?, isspace d = false by
        simp [htext, start.not_isspace]) p
    have stop : isNumeral x.value → NumStop (stream x.gap chunks) := by
      intro number
      cases hgap : x.gap with
      | cons d w =>
        simpa [stream] using numStop_of_isspace (gapSpaces d (by simp [hgap])) _
      | nil =>
        cases chunks with
        | nil => simp [NumStop]
        | cons y chunks =>
          have notNumber : isNumeral y.value = false := by
            by_contra isNumber
            exact (List.chain'_cons.mp separated).1 number (by simpa using isNumber) hgap
          rw [stream_cons, List.nil_append]
          exact (texts y (by simp)).1.text.numStop notNumber _
    have decode := rawDecode_complete text (p ++ lead) (stream x.gap chunks) stop
    have next := ih gapSpaces (fun y hy => texts y (.tail x hy)) separated.tail (p ++ lead ++ x.text)
      (packages ++ [x.value])
    simp only [List.append_assoc, List.length_append, Nat.add_assoc] at skip decode next
    rw [stream_cons, decodeLoop_next (by rw [skip]; simp [htext]), skip, decode]
    simp only
    rw [next, List.singleton_append, List.map_cons]

theorem runGoList_of_within {limit : Nat} {t : List Char} {v : PyValue} (h : Within limit t v) :
    runGoList limit t = .ok [v] := by
  simpa [runGoList] using decodeLoop_stream (show ∀ c ∈ ([] : List Char), isspace c by simp)
    (show ∀ x ∈ [Chunk.mk t v []], Within limit x.text x.value ∧ ∀ c ∈ x.gap, isspace c by
      simpa using h)
    (List.chain'_singleton _) [] []

/-! ## The loop of `run_go_list` -/

/-- Every call of `raw_decode` the loop makes moves the offset forward and not past the end, the
loop never runs out of fuel, and what it returns was read off the whole input: runs of characters
`str.isspace` holds for, between value texts that stand for the values returned. -/
theorem runGoList_factors (limit : Nat) (stdout : List Char) :
    (∀ i v j, rawDecode limit stdout i = .ok (v, j) → i < j ∧ j ≤ stdout.length) ∧
    runGoList limit stdout ≠ .error .outOfFuel ∧
    ∀ xs, runGoList limit stdout = .ok xs → ∃ lead chunks, stdout = stream lead chunks ∧
      (∀ c ∈ lead, isspace c) ∧ (∀ x ∈ chunks, Text x.text x.value ∧ ∀ c ∈ x.gap, isspace c) ∧
      chunks.map Chunk.value = xs := by
  refine ⟨fun _ _ _ => rawDecode_advances, runGoList_ne_outOfFuel limit stdout, fun xs h => ?_⟩
  obtain ⟨lead, chunks, hdrop, spaces, texts, rfl⟩ := decodeLoop_factors h
  exact ⟨lead, chunks, by simpa using hdrop, spaces, fun x hx => ⟨(texts x hx).1.text, (texts x hx).2⟩,
    by simp⟩

theorem runGoList_factors_spaced :
    (∀ i v j, rawDecode 1 ['[', ']', '\x0b', '1', '\u3000', '2', ' '] i = .ok (v, j) →
        i < j ∧ j ≤ 7) ∧
      runGoList 1 ['[', ']', '\x0b', '1', '\u3000', '2', ' '] ≠ .error .outOfFuel ∧
      ∃ lead chunks, ['[', ']', '\x0b', '1', '\u3000', '2', ' '] = stream lead chunks ∧
        (∀ c ∈ lead, isspace c) ∧ (∀ x ∈ chunks, Text x.text x.value ∧ ∀ c ∈ x.gap, isspace c) ∧
        chunks.map Chunk.value = [.list [], .int 1, .int 2] :=
  have read : runGoList 1 ['[', ']', '\x0b', '1', '\u3000', '2', ' '] =
      .ok [.list [], .int 1, .int 2] := by
    simpa [runGoList] using decodeLoop_stream (show ∀ c ∈ ([] : List Char), isspace c by simp)
      (show ∀ x ∈ [Chunk.mk ['[', ']'] (.list []) ['\x0b'], Chunk.mk ['1'] (.int 1) ['\u3000'],
          Chunk.mk ['2'] (.int 2) [' ']], Within 1 x.text x.value ∧ ∀ c ∈ x.gap, isspace c by
        simpa using ⟨⟨.of_rawDecode (by rfl), by decide⟩, ⟨.of_rawDecode (by rfl), by decide⟩,
          .of_rawDecode (by rfl), by decide⟩)
      (by simp [isNumeral]) [] []
  ⟨(runGoList_factors _ _).1, (runGoList_factors _ _).2.1, (runGoList_factors _ _).2.2 _ read⟩

/-- `run_go_list` raises only what `raw_decode` raises at the first value of the output that does
not decode: a `JSONDecodeError` on the output, placed between where that value starts and the
end, the `ValueError` of an integer of too many digits, or the `RecursionError` of arrays and
objects nested too deep. -/
theorem runGoList_error {limit : Nat} {stdout : List Char} {e : RawDecodeError}
    (h : runGoList limit stdout = .error e) :
    ∃ lead chunks j, stdout = stream lead chunks ++ stdout.drop j ∧ (∀ c ∈ lead, isspace c) ∧
      (∀ x ∈ chunks, Within limit x.text x.value ∧ ∀ c ∈ x.gap, isspace c) ∧
      (∀ c ∈ (stdout.drop j).head?, isspace c = false) ∧ j < stdout.length ∧
      rawDecode limit stdout j = .error e ∧ PlacedAt stdout j e := by
  obtain ⟨lead, chunks, j, hdrop, leadSpaces, texts, stop, within, fail⟩ := decodeLoop_error h
  exact ⟨lead, chunks, j, by simpa using hdrop, leadSpaces, texts, stop, within, fail,
    rawDecode_placed within.le fail⟩

theorem runGoList_error_after_null :
    runGoList 0 ("null x".toList) = .error (.jsonDecodeError ⟨"Expecting value", "null x".toList, 5⟩) ∧
      ∃ lead chunks j, "null x".toList = stream lead chunks ++ "null x".toList.drop j ∧
        (∀ c ∈ lead, isspace c) ∧
        (∀ x ∈ chunks, Within 0 x.text x.value ∧ ∀ c ∈ x.gap, isspace c) ∧
        (∀ c ∈ ("null x".toList.drop j).head?, isspace c = false) ∧ j < "null x".toList.length ∧
        rawDecode 0 "null x".toList j =
          .error (.jsonDecodeError ⟨"Expecting value", "null x".toList, 5⟩) ∧
        PlacedAt "null x".toList j (.jsonDecodeError ⟨"Expecting value", "null x".toList, 5⟩) :=
  have fail : runGoList 0 ("null x".toList) =
      .error (.jsonDecodeError ⟨"Expecting value", "null x".toList, 5⟩) := by
    have first : skipSpace "null x".toList 0 = 0 := skipSpace_stop (by simp) (by decide)
    have second : skipSpace "null x".toList 4 = 5 := by
      rw [skipSpace_space (by simp) (by decide), skipSpace_stop (by simp) (by decide)]
    rw [runGoList, decodeLoop_next (by rw [first]; simp), first]
    show decodeLoop 0 _ 4 [.none] = _
    rw [decodeLoop_next (by rw [second]; simp), second]
    rfl
  ⟨fail, runGoList_error fail⟩

/-- `run_go_list` returns no packages exactly when `go list` wrote only white space. -/
theorem runGoList_eq_nil_iff (limit : Nat) (stdout : List Char) :
    runGoList limit stdout = .ok [] ↔ ∀ c ∈ stdout, isspace c := by
  constructor
  · intro h
    obtain ⟨lead, chunks, hdrop, spaces, -, values⟩ := decodeLoop_factors h
    obtain rfl : chunks = [] := by simpa using values.symm
    simp only [List.drop_zero, stream_nil] at hdrop
    rwa [hdrop]
  · intro spaces
    refine decodeLoop_done (Nat.le_of_not_lt fun more => ?_) []
    have space := spaces _ (List.getElem_mem more)
    rw [isspace_skipSpace more] at space
    cases space

theorem runGoList_wellKeyed {limit : Nat} {stdout : List Char} {xs : List PyValue}
    (h : runGoList limit stdout = .ok xs) : ∀ v ∈ xs, WellKeyed v := by
  obtain ⟨-, chunks, -, -, texts, rfl⟩ := decodeLoop_factors h
  simpa using fun x hx => (texts x hx).1.text.wellKeyed

/-! ## The exit status of `go list` -/

/-- `str.strip()`: the text without what `str.isspace` holds for at either end. -/
def strip (s : List Char) : List Char := (s.dropWhile isspace).rdropWhile isspace

theorem rdropWhile_append_rtakeWhile (p : Char → Bool) (l : List Char) :
    l.rdropWhile p ++ l.rtakeWhile p = l := by
  simp [List.rdropWhile, List.rtakeWhile, ← List.reverse_append]

theorem strip_split (s : List Char) :
    ∃ w₁ w₂, s = w₁ ++ strip s ++ w₂ ∧ (∀ c ∈ w₁, isspace c) ∧ ∀ c ∈ w₂, isspace c :=
  ⟨s.takeWhile isspace, (s.dropWhile isspace).rtakeWhile isspace,
    by rw [List.append_assoc, strip, rdropWhile_append_rtakeWhile, List.takeWhile_append_dropWhile],
    fun _ hc => List.mem_takeWhile_imp hc, fun _ hc => List.mem_rtakeWhile_imp hc⟩

theorem strip_ends (s : List Char) :
    (∀ c ∈ (strip s).head?, isspace c = false) ∧ ∀ c ∈ (strip s).getLast?, isspace c = false := by
  constructor
  · intro c hc
    have first := List.head?_dropWhile_not isspace s
    rw [← rdropWhile_append_rtakeWhile isspace (s.dropWhile isspace), List.head?_append, ← strip,
      Option.mem_def.1 hc] at first
    exact first
  · intro c hc
    have nonempty : strip s ≠ [] := by
      rintro empty
      rw [empty] at hc
      cases hc
    rw [List.getLast?_eq_getLast _ nonempty, Option.mem_some_iff] at hc
    subst hc
    simpa using List.rdropWhile_last_not isspace (s.dropWhile isspace) nonempty

theorem strip_eq_nil_iff (s : List Char) : strip s = [] ↔ ∀ c ∈ s, isspace c := by
  rw [strip, List.rdropWhile_eq_nil_iff]
  constructor
  · intro spaces c hc
    rw [← List.takeWhile_append_dropWhile isspace s, List.mem_append] at hc
    exact hc.elim List.mem_takeWhile_imp (spaces c)
  · exact fun spaces c hc => spaces c ((List.dropWhile_suffix _).subset hc)

structure Proc where
  returncode : Int
  stdout : List Char
  stderr : List Char

inductive RunError
  | systemExit (msg : List Char)
  | decode (e : RawDecodeError)

/-- `run_go_list()` once `go list` has exited. -/
def runGoListProc (limit : Nat) (proc : Proc) : Except RunError (List PyValue) :=
  if proc.returncode ≠ 0 then
    .error (.systemExit (if strip proc.stderr ≠ [] then strip proc.stderr
      else ("go list failed: " ++ toString proc.returncode).toList))
  else (runGoList limit proc.stdout).mapError .decode

theorem runGoListProc_exit {proc : Proc} (failed : proc.returncode ≠ 0) (limit : Nat) :
    ∃ msg, runGoListProc limit proc = .error (.systemExit msg) ∧ msg ≠ [] ∧
      ((∀ c ∈ proc.stderr, isspace c) →
        msg = ("go list failed: " ++ toString proc.returncode).toList) ∧
      ((∃ c ∈ proc.stderr, isspace c = false) →
        ∃ w₁ w₂, proc.stderr = w₁ ++ msg ++ w₂ ∧ (∀ c ∈ w₁, isspace c) ∧ (∀ c ∈ w₂, isspace c) ∧
          (∀ c ∈ msg.head?, isspace c = false) ∧ ∀ c ∈ msg.getLast?, isspace c = false) := by
  by_cases blank : strip proc.stderr = []
  · refine ⟨_, by rw [runGoListProc, if_pos failed, if_neg (not_not.2 blank)], by simp, fun _ => rfl, ?_⟩
    rintro ⟨c, hc, notSpace⟩
    simp [(strip_eq_nil_iff _).1 blank c hc] at notSpace
  · obtain ⟨w₁, w₂, split, before, after⟩ := strip_split proc.stderr
    refine ⟨strip proc.stderr, by rw [runGoListProc, if_pos failed, if_pos blank], blank,
      fun spaces => absurd ((strip_eq_nil_iff _).2 spaces) blank,
      fun _ => ⟨w₁, w₂, split, before, after, strip_ends _⟩⟩

end GenDepsMd.GoList
