import GenDepsMd.GoList.Loop
import GenDepsMd.Json.Append

namespace GenDepsMd.GoList
open Json

variable {limit : Nat}

/-! ## Characters between values -/

theorem decodeLoop_head {s : List Char} {i : Nat} {packages xs : List PyValue}
    (h : decodeLoop limit s i packages = .ok xs) :
    ∀ c ∈ (s.drop i).head?, isspace c ∨ ValueStart c := by
  obtain ⟨lead, chunks, hdrop, leadSpaces, texts, -⟩ := decodeLoop_factors h
  rw [hdrop]
  cases lead with
  | cons c lead =>
    rintro d ⟨⟩
    exact .inl (leadSpaces c (.head _))
  | nil =>
    cases chunks with
    | nil => simp
    | cons x chunks =>
      obtain ⟨c, rest, htext, start, -⟩ := (texts x (.head _)).1.text.head
      simp [htext, start]

/-! ## The inner loop -/

theorem skipSpace_le_length {s : List Char} {i : Nat} (h : i ≤ s.length) :
    skipSpace s i ≤ s.length := by
  induction i using skipSpace.induct s with
  | case1 i lt space ih => rw [skipSpace_space lt space]; exact ih lt
  | case2 i lt stop => rw [skipSpace_stop lt stop]; exact h
  | case3 i ge => rw [skipSpace_of_le (Nat.le_of_not_lt ge)]; exact h

theorem skipSpace_skipSpace (s : List Char) (i : Nat) : skipSpace s (skipSpace s i) = skipSpace s i := by
  by_cases more : skipSpace s i < s.length
  · exact skipSpace_stop more (by simp [isspace_skipSpace more])
  · exact skipSpace_of_le (Nat.le_of_not_lt more)

theorem skipSpace_append_right {s : List Char} {i : Nat} (h : i ≤ s.length) (tail : List Char) :
    skipSpace (s ++ tail) i = skipSpace (s ++ tail) (skipSpace s i) := by
  induction i using skipSpace.induct s with
  | case1 i lt space ih =>
    rw [skipSpace_space lt space, ← ih lt,
      skipSpace_space (by simp; omega) (by rwa [List.getElem_append_left lt])]
  | case2 i lt stop => rw [skipSpace_stop lt stop]
  | case3 i ge => rw [skipSpace_of_le (Nat.le_of_not_lt ge)]

theorem skipSpace_append_of_lt {s : List Char} {i : Nat} (within : i ≤ s.length)
    (more : skipSpace s i < s.length) (tail : List Char) :
    skipSpace (s ++ tail) i = skipSpace s i := by
  rw [skipSpace_append_right within]
  exact skipSpace_stop (by simp; omega)
    (by rw [List.getElem_append_left more, isspace_skipSpace more]; simp)

theorem getElem_append_length_add {p s : List Char} {i : Nat} (h : i < s.length)
    (h' : p.length + i < (p ++ s).length) : (p ++ s)[p.length + i] = s[i] := by
  simp [List.getElem_append_right]

theorem skipSpace_shift (p s : List Char) (i : Nat) :
    skipSpace (p ++ s) (p.length + i) = p.length + skipSpace s i := by
  induction i using skipSpace.induct s with
  | case1 i lt space ih =>
    rw [skipSpace_space lt space, ← ih, skipSpace_space (by simp; omega) (by rwa [getElem_append_length_add lt])]
    rfl
  | case2 i lt stop =>
    rw [skipSpace_stop lt stop, skipSpace_stop (by simp; omega) (by rwa [getElem_append_length_add lt])]
  | case3 i ge =>
    rw [skipSpace_of_le (Nat.le_of_not_lt ge), skipSpace_of_le (by simp; omega)]

theorem skipSpace_spaces {w : List Char} (spaces : ∀ c ∈ w, isspace c) (p r : List Char) :
    skipSpace (p ++ (w ++ r)) p.length = skipSpace (p ++ (w ++ r)) (p.length + w.length) := by
  induction w generalizing p with
  | nil => simp
  | cons c w ih =>
    have next := ih (fun d hd => spaces d (.tail c hd)) (p ++ [c])
    simp only [List.append_assoc, List.singleton_append, List.length_append,
      List.length_singleton] at next
    simp only [List.cons_append, List.length_cons]
    rw [skipSpace_space (by simp) (by simpa [getElem_length_append] using spaces c (.head _)), next]
    rw [Nat.add_assoc, Nat.add_comm 1]

/-! ## The outer loop -/

theorem decodeLoop_skipSpace (s : List Char) (i : Nat) (packages : List PyValue) :
    decodeLoop limit s i packages = decodeLoop limit s (skipSpace s i) packages := by
  by_cases more : skipSpace s i < s.length
  · rw [decodeLoop_next more, decodeLoop_next (by rwa [skipSpace_skipSpace]), skipSpace_skipSpace]
  · have done := Nat.le_of_not_lt more
    rw [decodeLoop_done done, decodeLoop_done (by rwa [skipSpace_skipSpace])]

theorem decodeLoop_shift (p s : List Char) (i : Nat) (packages : List PyValue) :
    decodeLoop limit (p ++ s) (p.length + i) packages =
      (decodeLoop limit s i packages).mapError (RawDecodeError.shift p) := by
  induction i, packages using decodeLoop.induct limit s with
  | case1 i packages _ _ done =>
    replace done : s.length ≤ skipSpace s i := done
    rw [decodeLoop_done done, decodeLoop_done (by simp [skipSpace_shift, done])]
    rfl
  | case2 i packages _ _ more obj j decode ih =>
    replace more : ¬s.length ≤ skipSpace s i := more
    rw [decodeLoop_next (Nat.lt_of_not_le more), decode,
      decodeLoop_next (by simp [skipSpace_shift]; omega), skipSpace_shift, rawDecode_shift, decode]
    exact ih
  | case3 i packages _ _ more e decode =>
    replace more : ¬s.length ≤ skipSpace s i := more
    rw [decodeLoop_next (Nat.lt_of_not_le more), decode,
      decodeLoop_next (by simp [skipSpace_shift]; omega), skipSpace_shift, rawDecode_shift, decode]
    rfl
  | case4 i packages outside =>
    have past := Nat.le_of_not_lt outside
    have done : s.length ≤ skipSpace s i := by rw [skipSpace_of_le past]; exact past
    rw [decodeLoop_done done, decodeLoop_done (by simp [skipSpace_shift, done])]
    rfl

theorem decodeLoop_packages (s : List Char) (i : Nat) (pre packages : List PyValue) :
    decodeLoop limit s i (pre ++ packages) = (decodeLoop limit s i packages).map (pre ++ ·) := by
  induction i, packages using decodeLoop.induct limit s with
  | case1 i packages _ _ done =>
    replace done : s.length ≤ skipSpace s i := done
    rw [decodeLoop_done done, decodeLoop_done done]
    rfl
  | case2 i packages _ _ more obj j decode ih =>
    replace more : ¬s.length ≤ skipSpace s i := more
    rw [decodeLoop_next (Nat.lt_of_not_le more), decodeLoop_next (Nat.lt_of_not_le more), decode]
    simpa only [List.append_assoc] using ih
  | case3 i packages _ _ more e decode =>
    replace more : ¬s.length ≤ skipSpace s i := more
    rw [decodeLoop_next (Nat.lt_of_not_le more), decodeLoop_next (Nat.lt_of_not_le more), decode]
    rfl
  | case4 i packages outside =>
    have done : s.length ≤ skipSpace s i := by rw [skipSpace_of_le (by omega)]; omega
    rw [decodeLoop_done done, decodeLoop_done done]
    rfl

theorem decodeLoop_append {s : List Char} {i : Nat} {packages xs : List PyValue}
    (h : decodeLoop limit s i packages = .ok xs) (within : i ≤ s.length) {tail : List Char}
    (space : ∀ c ∈ tail.head?, isspace c) :
    decodeLoop limit (s ++ tail) i packages = decodeLoop limit (s ++ tail) s.length xs := by
  induction i, packages using decodeLoop.induct limit s with
  | case1 i packages _ _ done =>
    replace done : s.length ≤ skipSpace s i := done
    rw [decodeLoop_done done] at h
    cases h
    have atEnd : skipSpace s i = s.length := Nat.le_antisymm (skipSpace_le_length within) done
    rw [decodeLoop_skipSpace, skipSpace_append_right within, atEnd, ← decodeLoop_skipSpace]
  | case2 i packages _ _ more obj j decode ih =>
    replace more : ¬s.length ≤ skipSpace s i := more
    rw [decodeLoop_next (Nat.lt_of_not_le more), decode] at h
    have next : decodeLoop limit s j (packages ++ [obj]) = .ok xs := h
    have ends : isNumeral obj → NumberEnds (s.drop j) tail := fun _ => by
      refine ⟨fun empty => ?_, fun c hc => ?_⟩
      · cases tail with
        | nil => simp [NumStop]
        | cons c r => exact numStop_of_isspace (space c rfl) r
      · rcases decodeLoop_head next c hc with isSpace | start
        · exact (numStop_of_isspace isSpace [] c rfl).2
        · exact start.not_numberTail
    have skip := skipSpace_append_of_lt within (Nat.lt_of_not_le more) tail
    rw [decodeLoop_next (by rw [skip]; simp; omega), skip, rawDecode_append decode tail ends]
    exact ih next (rawDecode_advances decode).2
  | case3 i packages _ _ more e decode =>
    replace more : ¬s.length ≤ skipSpace s i := more
    rw [decodeLoop_next (Nat.lt_of_not_le more), decode] at h
    cases h
  | case4 i packages outside =>
    rw [decodeLoop_done (by rw [skipSpace_of_le (by omega)]; omega)] at h
    cases h
    rw [Nat.le_antisymm within (Nat.le_of_not_lt outside)]

theorem decodeLoop_join {s₁ s₂ w : List Char} {i : Nat} {packages xs : List PyValue}
    (first : decodeLoop limit s₁ i packages = .ok xs) (within : i ≤ s₁.length)
    (spaces : ∀ c ∈ w, isspace c) (nonempty : w ≠ []) :
    decodeLoop limit (s₁ ++ w ++ s₂) i packages =
      ((decodeLoop limit s₂ 0 []).map (xs ++ ·)).mapError (RawDecodeError.shift (s₁ ++ w)) := by
  have joined := decodeLoop_append first within
    (show ∀ c ∈ (w ++ s₂).head?, isspace c by
      rw [List.head?_append_of_ne_nil _ nonempty]
      exact fun c hc => spaces c (List.mem_of_mem_head? hc))
  have frame : decodeLoop limit (s₁ ++ w ++ s₂) ((s₁ ++ w).length + 0) xs =
      (decodeLoop limit s₂ 0 xs).mapError (RawDecodeError.shift (s₁ ++ w)) :=
    decodeLoop_shift _ _ _ _
  rw [List.append_assoc, Nat.add_zero, List.length_append] at frame
  rw [List.append_assoc, joined, decodeLoop_skipSpace, skipSpace_spaces spaces s₁ s₂,
    ← decodeLoop_skipSpace, frame, ← decodeLoop_packages, List.append_nil]

/-! ## The loop of `run_go_list` -/

/-- Two outputs written one after the other, with white space between them, are read as the
packages of the first followed by those of the second; when the second raises, the joined
output raises the same error, at a position moved by what came before it. -/
theorem runGoList_append {s₁ s₂ w : List Char} {xs : List PyValue}
    (first : runGoList limit s₁ = .ok xs) (spaces : ∀ c ∈ w, isspace c) (nonempty : w ≠ []) :
    runGoList limit (s₁ ++ w ++ s₂) =
      ((runGoList limit s₂).map (xs ++ ·)).mapError (RawDecodeError.shift (s₁ ++ w)) :=
  decodeLoop_join first (Nat.zero_le _) spaces nonempty

theorem runGoList_append_null_object :
    runGoList 0 "null".toList = .ok [.none] ∧ (∀ c ∈ [' '], isspace c) ∧ [' '] ≠ [] ∧
      runGoList 0 ("null".toList ++ [' '] ++ ['x']) =
        ((runGoList 0 ['x']).map ([.none] ++ ·)).mapError
          (RawDecodeError.shift ("null".toList ++ [' '])) :=
  have first : runGoList 0 "null".toList = .ok [.none] :=
    runGoList_of_within (.of_rawDecode (by rfl))
  ⟨first, by decide, by simp, runGoList_append first (by decide) (by simp)⟩

/-- `raw_decode` ends a number at a leading `0`, so a `0` directly followed by digits is read as
the value `0`, and the loop goes on with the digits; an error there is raised one character
further on. -/
theorem runGoList_zero {c : Char} (digit : c.isDigit) (rest : List Char) :
    runGoList limit ('0' :: c :: rest) =
      ((runGoList limit (c :: rest)).map (.int 0 :: ·)).mapError (RawDecodeError.shift ['0']) := by
  have stop : skipSpace ('0' :: c :: rest) 0 = 0 :=
    skipSpace_stop (by simp) (show ¬isspace '0' by decide)
  have shift : decodeLoop limit (['0'] ++ c :: rest) (['0'].length + 0) [.int 0] =
      (decodeLoop limit (c :: rest) 0 [.int 0]).mapError (RawDecodeError.shift ['0']) :=
    decodeLoop_shift _ _ _ _
  simp only [List.singleton_append, List.length_singleton, Nat.add_zero] at shift
  unfold runGoList
  rw [decodeLoop_next (by rw [stop]; simp), stop, rawDecode_zero digit]
  exact shift.trans (congrArg _ (decodeLoop_packages (c :: rest) 0 [.int 0] []))

theorem runGoList_zero_one_x :
    ('1' : Char).isDigit ∧ runGoList 0 ['0', '1', 'x'] =
      ((runGoList 0 ['1', 'x']).map (.int 0 :: ·)).mapError (RawDecodeError.shift ['0']) :=
  ⟨rfl, runGoList_zero (show ('1' : Char).isDigit from rfl) ['x']⟩

end GenDepsMd.GoList
