import TwoLevel.Table.Reader
import TwoLevel.Proofs.Cubes
import Mathlib.Data.List.Count

/-!
The rows that a row with open inputs stands for. They are the minterms whose values agree with the
inputs that are set, each of them once; for the inputs of a cube these are the minterms in the cube.
-/

namespace TwoLevel

namespace Table

/-- The values agree with every input that is set. -/
def fits : List (Option Bool) → List Bool → Bool
  | [], [] => true
  | input :: inputs, value :: values => input.all (· == value) && fits inputs values
  | _, _ => false

theorem fits_iff {inputs : List (Option Bool)} {values : List Bool} :
    fits inputs values = true ↔ inputs.length = values.length ∧
      ∀ (position : Nat) (value : Bool),
        inputs[position]? = some (some value) → values[position]? = some value := by
  induction inputs generalizing values with
  | nil => cases values <;> simp [fits]
  | cons input inputs ih =>
      cases values with
      | nil => simp [fits]
      | cons first values =>
          rw [fits, Bool.and_eq_true, ih, List.length_cons, List.length_cons, Nat.add_right_cancel_iff]
          constructor
          · rintro ⟨here, length, later⟩
            refine ⟨length, fun position value set => ?_⟩
            cases position with
            | zero =>
                rw [Option.some.inj set] at here
                exact (congrArg some (eq_of_beq here)).symm
            | succ position => exact later position value set
          · rintro ⟨length, agree⟩
            refine ⟨?_, length, fun position value set => agree (position + 1) value set⟩
            cases input with
            | none => rfl
            | some value => exact beq_iff_eq.2 (Option.some.inj (agree 0 value rfl)).symm

end Table

/-! ## Minterms by their values -/

namespace Cube

variable {c m : Cube} {n : Nat} {values : List Bool}

theorem literalsFrom_polarities {first : Nat} {literals : List Literal}
    (inOrder : ∀ entry ∈ literals.zipIdx first, entry.1.var = entry.2) :
    literalsFrom first (literals.map (·.polarity.value)) = literals := by
  induction literals generalizing first with
  | nil => rfl
  | cons l rest ih =>
      obtain ⟨here, later⟩ := List.forall_mem_cons.1 inOrder
      rw [List.map_cons, literalsFrom, ih later, Polarity.ofValue_value]
      exact congrArg (Literal.mk · l.polarity :: rest) here.symm

theorem isMinterm_iff_exists :
    m.IsMinterm n ↔ ∃ values : List Bool, values.length = n ∧ m = ofBits values := by
  constructor
  · rintro ⟨length, inOrder⟩
    refine ⟨m.literals.map (·.polarity.value), by rw [List.length_map]; exact length, ?_⟩
    exact eq_of_literals (literalsFrom_polarities inOrder).symm
  · rintro ⟨values, rfl, rfl⟩
    exact isMinterm_ofBits values

theorem mem_literalsFrom {first : Nat} {l : Literal} :
    l ∈ literalsFrom first values ↔
      ∃ position, values[position]? = some l.polarity.value ∧ l.var = first + position := by
  induction values generalizing first with
  | nil => simp [literalsFrom]
  | cons value rest ih =>
      rw [literalsFrom, List.mem_cons, ih]
      constructor
      · rintro (rfl | ⟨position, here, place⟩)
        · exact ⟨0, by simp, rfl⟩
        · exact ⟨position + 1, by simpa using here, by omega⟩
      · rintro ⟨position, here, place⟩
        cases position with
        | zero =>
            obtain ⟨var, polarity⟩ := l
            simp only [List.getElem?_cons_zero, Option.some.injEq] at here
            exact .inl (by simp_all)
        | succ position => exact .inr ⟨position, by simpa using here, by omega⟩

theorem mem_ofBits {l : Literal} :
    l ∈ (ofBits values).literals ↔ values[l.var]? = some l.polarity.value := by
  rw [ofBits, mem_literalsFrom]
  simp only [Nat.zero_add]
  exact ⟨fun ⟨position, here, place⟩ => place ▸ here, fun here => ⟨l.var, here, rfl⟩⟩

/-! ## What a cube asks of the variables of a table -/

def inputs (c : Cube) (n : Nat) : List (Option Bool) :=
  (List.range n).map fun var => (c.polarityOf? var).map Polarity.value

/-- The number of variables of a table that a cube leaves free. -/
def freeIn (c : Cube) (n : Nat) : Nat := (List.range n).countP (!c.fixes ·)

@[simp] theorem length_inputs (c : Cube) (n : Nat) : (c.inputs n).length = n := by
  simp [inputs]

theorem freeIn_le (c : Cube) (n : Nat) : c.freeIn n ≤ n := by
  simpa [freeIn] using List.countP_le_length (p := (!c.fixes ·)) (l := List.range n)

theorem countP_inputs (c : Cube) (n : Nat) : (c.inputs n).countP (·.isNone) = c.freeIn n := by
  rw [inputs, List.countP_map, freeIn]
  congr
  funext var
  simp [fixes]

theorem getElem?_inputs {position : Nat} {value : Bool} :
    (c.inputs n)[position]? = some (some value) ↔
      position < n ∧ ⟨position, .ofValue value⟩ ∈ c.literals := by
  rw [inputs, List.getElem?_map, ← polarityOf?_eq_some]
  by_cases below : position < n
  · rw [List.getElem?_range below, Option.map_some, Option.some.injEq, Option.map_eq_some_iff,
      and_iff_right below]
    exact ⟨fun ⟨p, known, same⟩ => by rw [known, ← same, Polarity.ofValue_value],
      fun known => ⟨_, known, Polarity.value_ofValue value⟩⟩
  · rw [List.getElem?_eq_none (by simpa using below)]
    simp [below]

theorem fits_inputs_iff (below : ∀ l ∈ c.literals, l.var < values.length) :
    Table.fits (c.inputs values.length) values = true ↔ c.admits (ofBits values) = true := by
  rw [Table.fits_iff, admits_iff, length_inputs]
  simp only [getElem?_inputs, mem_ofBits, true_and]
  constructor
  · intro agree l member
    exact agree l.var l.polarity.value ⟨below l member, by rwa [Polarity.ofValue_value]⟩
  · rintro inside position value ⟨_, member⟩
    simpa using inside _ member

theorem inputs_ofBits (values : List Bool) :
    (ofBits values).inputs values.length = values.map some := by
  apply List.ext_getElem (by simp)
  intro position below below'
  have inside : position < values.length := by simpa using below
  have set : ((ofBits values).inputs values.length)[position]? = some (some values[position]) := by
    rw [getElem?_inputs, mem_ofBits]
    simp [inside]
  rw [List.getElem?_eq_getElem below] at set
  simpa using set

end Cube

namespace Table

open TwoLevel.Cube

variable {values : List Bool} {inputs : List (Option Bool)} {first line n : Nat} {c m : Cube}

/-! ## Counting the fillings -/

theorem count_map_cons (l k : Literal) (tail : List Literal) (lists : List (List Literal)) :
    (lists.map (l :: ·)).count (k :: tail) = if l = k then lists.count tail else 0 := by
  by_cases same : l = k
  · subst same
    rw [if_pos rfl]
    exact List.count_map_of_injective lists (l :: ·) List.cons_injective tail
  · rw [if_neg same, List.count_eq_zero]
    intro member
    obtain ⟨rest, _, equal⟩ := List.mem_map.1 member
    exact same (List.cons.inj equal).1

theorem count_flatMap_once {α β : Type} [BEq β] {f : α → List β} {p : α → Bool} {b : β}
    {list : List α} (once : ∀ a ∈ list, (f a).count b = if p a = true then 1 else 0) :
    (list.flatMap f).count b = list.countP p := by
  induction list with
  | nil => rfl
  | cons a rest ih =>
      have ⟨here, later⟩ := List.forall_mem_cons.1 once
      rw [List.flatMap_cons, List.count_append, List.countP_cons, here, ih later, Nat.add_comm]

theorem count_flatMap_both (value : Bool) (tail : List Literal) (lists : List (List Literal)) :
    (lists.flatMap fun literals => [.complement first :: literals, .normal first :: literals]).count
      (⟨first, .ofValue value⟩ :: tail) = lists.count tail := by
  -- of the two ways to go on, one has the value
  refine count_flatMap_once fun literals _ => ?_
  cases value <;> simp [Literal.complement, Literal.normal, Polarity.ofValue, List.count_cons]

theorem count_fillings (inputs : List (Option Bool)) (first : Nat) (values : List Bool) :
    (fillings first inputs).count (literalsFrom first values) =
      if fits inputs values = true then 1 else 0 := by
  induction inputs generalizing first values with
  | nil => cases values <;> simp [fillings, literalsFrom, fits]
  | cons input inputs ih =>
      cases values with
      | nil =>
          cases input <;> simp [fillings, literalsFrom, fits, List.count_eq_zero]
      | cons value values =>
          cases input with
          | none =>
              rw [fillings, literalsFrom, count_flatMap_both, ih]
              simp [fits]
          | some set =>
              rw [fillings, literalsFrom, count_map_cons, ih]
              cases set <;> cases value <;> simp [fits, Polarity.ofValue]

theorem mem_fillings_iff {literals : List Literal} : literals ∈ fillings first inputs ↔
    ∃ values, fits inputs values = true ∧ literals = literalsFrom first values := by
  constructor
  · intro member
    obtain ⟨values, rfl⟩ := exists_of_mem_fillings member
    have once := List.count_pos_iff.2 member
    rw [count_fillings] at once
    refine ⟨values, ?_, rfl⟩
    by_contra unfit
    simp [unfit] at once
  · rintro ⟨values, fit, rfl⟩
    rw [← List.count_pos_iff, count_fillings, if_pos fit]
    exact Nat.one_pos

/-! ## Rows filled in -/

theorem literals_fill (inputs : List (Option Bool)) :
    (fill inputs).map (·.1.literals) = fillings 0 inputs := by
  rw [fill, List.map_map]
  exact List.attach_map_subtype_val (fillings 0 inputs)

theorem size_of_mem_fill {m : Minterm} (member : m ∈ fill inputs) : m.1.size = inputs.length := by
  have filling : m.1.literals ∈ fillings 0 inputs := by
    rw [← literals_fill]
    exact List.mem_map_of_mem member
  obtain ⟨values, fit, same⟩ := mem_fillings_iff.1 filling
  rw [Cube.size, same, length_literalsFrom, (fits_iff.1 fit).1]

theorem count_fill (inputs : List (Option Bool)) (values : List Bool) :
    ((fill inputs).map (·.1)).count (ofBits values) = if fits inputs values = true then 1 else 0 := by
  have injective : Function.Injective Cube.literals := fun _ _ => eq_of_literals
  rw [← count_fillings inputs 0, ← literals_fill, ← List.count_map_of_injective _ _ injective,
    List.map_map]
  rfl

theorem count_fill_inputs (below : ∀ l ∈ c.literals, l.var < n) (minterm : m.IsMinterm n) :
    ((fill (c.inputs n)).map (·.1)).count m = if c.admits m = true then 1 else 0 := by
  obtain ⟨values, rfl, rfl⟩ := isMinterm_iff_exists.1 minterm
  rw [count_fill]
  simp only [fits_inputs_iff below]

theorem fillings_set (first : Nat) (values : List Bool) :
    fillings first (values.map some) = [literalsFrom first values] := by
  induction values generalizing first with
  | nil => rfl
  | cons value values ih =>
      rw [List.map_cons, fillings, ih]
      rfl

theorem fill_minterm (minterm : m.IsMinterm n) : (fill (m.inputs n)).map (·.1) = [m] := by
  obtain ⟨values, rfl, rfl⟩ := isMinterm_iff_exists.1 minterm
  rw [inputs_ofBits]
  have injective : Function.Injective Cube.literals := fun _ _ => eq_of_literals
  apply List.map_injective_iff.2 injective
  rw [List.map_map]
  exact (literals_fill _).trans (fillings_set 0 values)

theorem freeIn_minterm (minterm : m.IsMinterm n) : m.freeIn n = 0 := by
  obtain ⟨values, rfl, rfl⟩ := isMinterm_iff_exists.1 minterm
  rw [← countP_inputs, inputs_ofBits]
  simp

end Table

end TwoLevel
