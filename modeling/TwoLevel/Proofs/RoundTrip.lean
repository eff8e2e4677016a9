import TwoLevel.Proofs.Rows
import TwoLevel.Proofs.Written

/-!
Round trips through text. A table that is written and read again is the same table; a written cover
reads as the table of its minterms, each as often as there are cubes that hold it.
-/

namespace TwoLevel

open Text

namespace Table

variable {t u : Table} {draft next : Draft} {number n : Nat} {list : List String} {output : String}
  {onset offset : Rows} {c : Cube} {cubes : CubeSet}

/-! ## What reading leaves behind -/

/-- All that the reader has taken for a name is a word. -/
structure Draft.Wordy (draft : Draft) : Prop where
  names : ∀ names ∈ draft.names, ∀ name ∈ names, IsWord name
  output : ∀ output ∈ draft.output, IsWord output

theorem wordy_directive (wordy : draft.Wordy) (plain : ∀ word ∈ list, IsWord word)
    (read : draft.directive list = .ok next) : next.Wordy := by
  rcases directive_eq_ok read with rfl | ⟨width, rfl⟩ | ⟨keyword, names, rfl, rfl⟩ |
    ⟨keyword, names, rfl, rfl⟩
  · exact wordy
  · exact ⟨wordy.names, wordy.output⟩
  · refine ⟨?_, wordy.output⟩
    rintro _ ⟨⟩ name member
    exact plain name (List.mem_cons_of_mem keyword member)
  · refine ⟨wordy.names, fun output first => ?_⟩
    exact plain output (List.mem_cons_of_mem keyword (List.mem_of_head? first))

theorem wordy_line (draft : Draft) (number : Nat) (text : List Char) (next : Draft)
    (wordy : draft.Wordy) (read : draft.line number text = .ok (some next)) : next.Wordy := by
  rcases line_eq_some read with rfl | directive | row
  · exact wordy
  · exact wordy_directive wordy (fun word member => isWord_of_mem_words member) directive
  · obtain ⟨inputs, outputs, values, kind, _, _, _, _, rfl⟩ := row_eq_ok row
    exact ⟨by simpa using wordy.names, by simpa using wordy.output⟩

theorem readable_of_finalNames {names : Names} (wordy : draft.Wordy) (counted : n < UInt64.size)
    (named : draft.finalNames n = .ok names) :
    Readable n names (draft.output.getD defaultOutput) := by
  have size := size_of_finalNames named
  have output : IsWord (draft.output.getD defaultOutput) := by
    cases given : draft.output with
    | none => decide
    | some output => exact wordy.output output given
  unfold Draft.finalNames at named
  split at named
  · cases named
    refine ⟨counted, Names.indexed_generated n, size, fun name member => ?_, output⟩
    rcases Names.of_mem_fillTo member with old | ⟨number, rfl⟩
    · cases old
    · exact isWord_defaultName number
  · rename_i list given
    split at named
    · cases named
      refine ⟨counted, Names.indexed_ofList list, size, ?_, output⟩
      rw [Names.toList_ofList]
      exact wordy.names list given
    · cases named

theorem readable_of_ofString {text : String} (read : ofString text = .ok t)
    (counted : t.arity < UInt64.size) : Readable t.arity t.names t.output := by
  obtain ⟨draft, lines, finished⟩ := ofString_eq_ok.1 read
  have start : ({} : Draft).Wordy :=
    ⟨fun _ given => absurd given (by simp), fun _ given => absurd given (by simp)⟩
  have wordy : draft.Wordy := readFrom_preserves wordy_line start lines
  obtain ⟨_, named, output, _, _⟩ := finish_eq_ok finished
  rw [output]
  exact readable_of_finalNames wordy counted named

theorem readable_fillTo {names : List String} (counted : n < UInt64.size)
    (few : names.length ≤ n) (words : ∀ name ∈ names, IsWord name) (word : IsWord output) :
    Readable n ((Names.ofList names).fillTo n) output where
  counted := counted
  indexed := Names.indexed_fillTo (Names.indexed_ofList names) n
  size := by
    rw [Names.size_fillTo, Names.size_eq, Names.toList_ofList]
    exact Nat.max_eq_right few
  words := by
    intro name member
    rcases Names.of_mem_fillTo member with given | ⟨number, rfl⟩
    · exact words name (Names.toList_ofList names ▸ given)
    · exact isWord_defaultName number
  output := word

/-! ## Tables -/

theorem eq_of_fields (names : t.names = u.names) (output : t.output = u.output)
    (arity : t.arity = u.arity) (onset : t.onset.minterms = u.onset.minterms)
    (offset : t.offset.minterms = u.offset.minterms) : t = u := by
  have on : t.onset = u.onset := Rows.eq_of_minterms arity onset
  have off : t.offset = u.offset :=
    Rows.eq_of_minterms (t.sameVariables.symm.trans (arity.trans u.sameVariables)) offset
  cases t
  cases u
  simp_all

theorem flatMap_fill_minterms {minterms : List Cube}
    (complete : ∀ m ∈ minterms, m.IsMinterm n) :
    minterms.flatMap (fun c => (fill (c.inputs n)).map (·.1)) = minterms := by
  induction minterms with
  | nil => rfl
  | cons m rest ih =>
      rw [List.flatMap_cons, fill_minterm (complete m List.mem_cons_self),
        ih fun other member => complete other (List.mem_cons_of_mem m member)]
      rfl

theorem ofString_text (readable : Readable t.arity t.names t.output) : ofString t.text = .ok t := by
  have completeOff : ∀ m ∈ t.offset.minterms, m.IsMinterm t.arity := by
    rw [Table.arity, t.sameVariables]
    exact t.offset.complete
  have few {minterms : List Cube} (complete : ∀ m ∈ minterms, m.IsMinterm t.arity) :
      ∀ m ∈ minterms, m.freeIn t.arity ≤ maxFree := by
    intro m member
    rw [freeIn_minterm (complete m member)]
    exact Nat.zero_le maxFree
  obtain ⟨u, read, arity, names, output, onset, offset⟩ := ofString_written
    (by decide : IsWord "fr") isEnd_end readable (t.onset.size + t.offset.size) (few t.onset.complete)
    (few completeOff)
  have same : u = t := by
    refine eq_of_fields names output arity ?_ ?_
    · rw [onset]
      exact flatMap_fill_minterms t.onset.complete
    · rw [offset]
      exact flatMap_fill_minterms completeOff
  rw [same] at read
  have text : t.text = joinLines (rowsFrom "fr" t.arity t.names t.output
      (t.onset.size + t.offset.size) (t.onset.minterms.map (rowLine t.arity '1') ++
        t.offset.minterms.map (rowLine t.arity '0')) ".end") := by
    rw [Table.text, Table.lines, rowsFrom, List.append_assoc _ (List.map _ _) (List.map _ _)]
    rfl
  rw [text]
  exact read

/-- A table that was built, or read from any text, is read from its own text again, as long as the
number of its variables fits the 64 bits of a count. -/
theorem text_reads_back :
    (∀ (names : List String) (output : String) (onset offset : Rows),
      onset.arity = offset.arity → onset.arity < UInt64.size → names.length ≤ onset.arity →
      (∀ name ∈ names, IsWord name) → IsWord output →
      ∃ t, ofRows (.ofList names) output onset offset = .ok t ∧
        t.onset = onset ∧ t.offset = offset ∧ t.output = output ∧ ofString t.text = .ok t) ∧
    ∀ (text : String) (t : Table), ofString text = .ok t → t.arity < UInt64.size →
      ofString t.text = .ok t ∧ (ofString t.text).map Table.text = .ok t.text := by
  constructor
  · intro names output onset offset same counted few words word
    have readable := readable_fillTo counted few words word
    refine ⟨⟨(Names.ofList names).fillTo onset.arity, output, onset, offset, same⟩, ?_, rfl, rfl, rfl,
      ofString_text readable⟩
    rw [ofRows, dif_pos same]
  · intro text t read counted
    have again := ofString_text (readable_of_ofString read counted)
    exact ⟨again, by rw [again]; rfl⟩

/-- Two variables of one name, and one row twice. -/
theorem text_reads_back_repeated :
    ∃ t, ofRows (.ofList ["a", "a"]) "f"
        ⟨2, [.ofBits [true, false], .ofBits [true, false]], by decide⟩ (.empty 2) = .ok t ∧
      ofString t.text = .ok t ∧ (ofString t.text).map Table.text = .ok t.text := by
  obtain ⟨t, built, onset, _, _, read⟩ := text_reads_back.1 ["a", "a"] "f"
    ⟨2, [.ofBits [true, false], .ofBits [true, false]], by decide⟩ (.empty 2) rfl (by decide)
    (by decide) (by decide) (by decide)
  have counted : t.arity < UInt64.size := by
    rw [Table.arity, onset]
    decide
  exact ⟨t, built, text_reads_back.2 t.text t read counted⟩

/-! ## Covers -/

theorem count_flatMap_fill {cubes : List Cube} {m : Cube}
    (below : ∀ c ∈ cubes, ∀ l ∈ c.literals, l.var < n) (minterm : m.IsMinterm n) :
    (cubes.flatMap fun c => (fill (c.inputs n)).map (·.1)).count m = cubes.countP (·.admits m) :=
  count_flatMap_once fun c member => count_fill_inputs (below c member) minterm

theorem text_withCubes (t : Table) (cubes : CubeSet) : (t.withCubes cubes).text =
    joinLines (rowsFrom "f" t.arity t.names t.output cubes.size
      (cubes.cubes.map (rowLine t.arity '1') ++ [].map (rowLine t.arity '0')) ".e") := by
  rw [List.map_nil, List.append_nil]
  rfl

theorem getElem?_rowsFrom {form last : String} {names : Names} (positive : 0 < n) (count : Nat)
    (rows : List String) (index : Nat) (inside : index < rows.length) :
    (rowsFrom form n names output count rows last)[index + 6]? = rows[index]? := by
  -- with variables, the names are a line of the header
  have length : ([".type " ++ form] ++ headerLines n names output ++
      [".p " ++ toString count]).length = 6 := by
    rw [headerLines_eq, List.length_map, length_head, if_pos positive]
  rw [rowsFrom, List.append_assoc _ rows, List.getElem?_append_right (by omega), length,
    Nat.add_sub_cancel, List.getElem?_append_left inside]

/-- A written cover reads as the table of the minterms in its cubes, unless a cube leaves too many
variables free; then the fault names the line of the first such cube. -/
theorem withCubes_reads_back (text : String) (t : Table) (read : ofString text = .ok t)
    (counted : t.arity < UInt64.size) (cubes : CubeSet)
    (below : ∀ c ∈ cubes, ∀ l ∈ c.literals, l.var < t.arity) :
    ((∀ c ∈ cubes, c.freeIn t.arity ≤ 16) →
      ∃ u, ofString (t.withCubes cubes).text = .ok u ∧ u.arity = t.arity ∧ u.names = t.names ∧
        u.output = t.output ∧ u.offset.minterms = [] ∧
        ∀ m : Cube, m.IsMinterm t.arity →
          u.onset.minterms.count m = cubes.cubes.countP (·.admits m)) ∧
    ((∃ c ∈ cubes, 16 < c.freeIn t.arity) →
      ∃ before c after, cubes.cubes = before ++ c :: after ∧
        (∀ d ∈ before, d.freeIn t.arity ≤ 16) ∧ 16 < c.freeIn t.arity ∧
        ofString (t.withCubes cubes).text =
          .error (.malformed (.tooManyFree (before.length + 7) (c.freeIn t.arity) 16)) ∧
        (t.withCubes cubes).lines[before.length + 6]? = some (rowLine t.arity '1' c)) := by
  have readable := readable_of_ofString read counted
  constructor
  · intro few
    obtain ⟨u, again, arity, names, output, onset, offset⟩ := ofString_written
      (by decide : IsWord "f") isEnd_e readable cubes.size few
      (fun c (none : c ∈ ([] : List Cube)) => absurd none List.not_mem_nil)
    refine ⟨u, (congrArg ofString (text_withCubes t cubes)).trans again, arity, names, output, offset,
      fun m minterm => ?_⟩
    rw [onset]
    exact count_flatMap_fill below minterm
  · rintro ⟨d, member, many⟩
    obtain ⟨c, first⟩ := Option.isSome_iff_exists.1
      (List.find?_isSome.2 ⟨d, member, decide_eq_true many⟩ :
        (cubes.cubes.find? fun c => decide (16 < c.freeIn t.arity)).isSome = true)
    obtain ⟨wide, before, after, parts, narrow⟩ := List.find?_eq_some_iff_append.1 first
    have few : ∀ d ∈ before, d.freeIn t.arity ≤ 16 := fun d inside => by
      simpa using narrow d inside
    have positive : 0 < t.arity :=
      Nat.lt_of_lt_of_le (Nat.zero_lt_of_lt (of_decide_eq_true wide)) (Cube.freeIn_le c t.arity)
    refine ⟨before, c, after, parts, few, of_decide_eq_true wide, ?_, ?_⟩
    · rw [text_withCubes, parts, Nat.add_comm]
      exact ofString_written_of_many (by decide) isEnd_e readable cubes.size few
        (of_decide_eq_true wide)
    · have lines : (t.withCubes cubes).lines = rowsFrom "f" t.arity t.names t.output cubes.size
          (cubes.cubes.map (rowLine t.arity '1')) ".e" := rfl
      rw [lines, getElem?_rowsFrom positive _ _ _ (by simp [parts]), List.getElem?_map, parts]
      simp

/-- Of 17 variables the universal cube leaves one too many free, a cube of one literal does not. -/
theorem withCubes_reads_back_wide :
    ∃ t, ofString t.text = .ok t ∧ t.arity = 17 ∧
      ofString (t.withCubes (.ofList [.universal])).text =
        .error (.malformed (.tooManyFree 7 17 16)) ∧
      ∃ u, ofString (t.withCubes (.ofList [⟨[.normal 0], by simp⟩])).text = .ok u ∧
        ∀ m : Cube, m.IsMinterm 17 →
          u.onset.minterms.count m = if Literal.normal 0 ∈ m.literals then 1 else 0 := by
  let t : Table := ⟨(Names.ofList []).fillTo 17, "f", .empty 17, .empty 17, rfl⟩
  have read : ofString t.text = .ok t :=
    ofString_text (readable_fillTo (by decide) (by decide) (by decide) (by decide))
  refine ⟨t, read, rfl, ?_, ?_⟩
  · have back := withCubes_reads_back t.text t read (by decide) (.ofList [.universal]) (by decide)
    obtain ⟨before, c, after, parts, _, _, fault, _⟩ := back.2 (by decide)
    have single : [Cube.universal] = before ++ c :: after := parts
    cases before with
    | nil =>
        obtain ⟨rfl, _⟩ := List.cons.inj single
        exact fault
    | cons d rest => simp at single
  · have back := withCubes_reads_back t.text t read (by decide)
      (.ofList [⟨[.normal 0], by simp⟩]) (by decide)
    obtain ⟨u, again, _, _, _, _, counts⟩ := back.1 (by decide)
    refine ⟨u, again, fun m minterm => ?_⟩
    have admits : (⟨[.normal 0], by simp⟩ : Cube).admits m = true ↔ .normal 0 ∈ m.literals := by
      simp [Cube.admits_iff]
    rw [counts m minterm]
    change [(⟨[.normal 0], by simp⟩ : Cube)].countP (·.admits m) = _
    simp [List.countP_cons, admits]

end Table

end TwoLevel
