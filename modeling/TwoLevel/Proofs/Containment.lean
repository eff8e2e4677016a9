import TwoLevel.Proofs.Fillings

/-!
Cubes by the minterms that they hold. A cube is completed to a minterm by a choice of values for the
variables that it leaves free. A literal that it lacks is missed by one of its completions, so a cube
has the literals of another one exactly if it holds all minterms that the other one holds.
-/

namespace TwoLevel

namespace Polarity

variable {p q : Polarity}

theorem flip_ne (p : Polarity) : p.flip ≠ p := by
  cases p <;> decide

theorem value_inj : p.value = q.value ↔ p = q := by
  cases p <;> cases q <;> decide

end Polarity

namespace Cube

variable {a b c m : Cube} {l : Literal} {n : Nat} {default : Nat → Polarity}

/-- The minterm that follows the cube, and the default where the cube leaves a variable free. -/
def completed (c : Cube) (n : Nat) (default : Nat → Polarity) : Cube :=
  .ofBits ((List.range n).map fun var => ((c.polarityOf? var).getD (default var)).value)

theorem isMinterm_completed (c : Cube) (n : Nat) (default : Nat → Polarity) :
    (c.completed n default).IsMinterm n :=
  isMinterm_iff_exists.2 ⟨_, by simp, rfl⟩

theorem mem_completed : l ∈ (c.completed n default).literals ↔
    l.var < n ∧ (c.polarityOf? l.var).getD (default l.var) = l.polarity := by
  rw [completed, mem_ofBits, List.getElem?_map]
  by_cases below : l.var < n
  · rw [List.getElem?_range below, Option.map_some, Option.some.injEq, Polarity.value_inj]
    exact (and_iff_right below).symm
  · rw [List.getElem?_eq_none (by simpa using below)]
    simp [below]

theorem completed_admits (below : ∀ l ∈ c.literals, l.var < n) :
    c.admits (c.completed n default) = true := by
  apply admits_iff.2
  intro l member
  rw [mem_completed, polarityOf?_eq_some.2 member]
  exact ⟨below l member, rfl⟩

theorem admits_eq_all (a b : Cube) :
    a.admits b = (a.isUniversal || a.literals.all (b.contains ·)) := by
  rw [Bool.eq_iff_iff, admits_iff, Bool.or_eq_true, List.all_eq_true]
  simp only [contains_iff]
  refine ⟨.inr, fun holds => holds.elim (fun none => ?_) id⟩
  rw [List.isEmpty_iff.1 none]
  simp

/-- The completion that gives a free variable the other value misses a literal on it. -/
theorem mem_of_completions (below : ∀ l ∈ b.literals, l.var < n)
    (all : ∀ m : Cube, m.IsMinterm n → b.admits m = true → l ∈ m.literals) : l ∈ b.literals := by
  have held := all _ (b.isMinterm_completed n fun _ => l.polarity.flip) (completed_admits below)
  obtain ⟨-, chosen⟩ := mem_completed.1 held
  cases known : b.polarityOf? l.var with
  | none =>
      rw [known, Option.getD_none] at chosen
      exact absurd chosen l.polarity.flip_ne
  | some p =>
      rw [known, Option.getD_some] at chosen
      exact polarityOf?_eq_some.1 (chosen ▸ known)

theorem admits_of_minterms (below : ∀ l ∈ b.literals, l.var < n)
    (all : ∀ m : Cube, m.IsMinterm n → b.admits m = true → a.admits m = true) :
    a.admits b = true :=
  admits_iff.2 fun l member => mem_of_completions below fun m minterm inside =>
    admits_iff.1 (all m minterm inside) l member

theorem eq_of_admits_both (first : a.admits b = true) (second : b.admits a = true) : a = b :=
  eq_of_mem_iff fun l => ⟨admits_iff.1 first l, admits_iff.1 second l⟩

/-- A cube admits another one, that is, it is universal or all of its literals are found in the other
one, exactly if it holds every minterm that the other one holds. Cubes that hold the same minterms are
equal. -/
theorem admits_iff_minterms (n : Nat) (a b : Cube) (left : ∀ l ∈ a.literals, l.var < n)
    (right : ∀ l ∈ b.literals, l.var < n) :
    (a.admits b = (a.isUniversal || a.literals.all (b.contains ·))) ∧
    (a.admits b = true ↔ ∀ m : Cube, m.IsMinterm n → b.admits m = true → a.admits m = true) ∧
    ((∀ m : Cube, m.IsMinterm n → (a.admits m = true ↔ b.admits m = true)) → a = b) := by
  refine ⟨admits_eq_all a b, ⟨fun wider m _ inside => admits_trans wider inside,
    admits_of_minterms right⟩, fun same => ?_⟩
  have first := admits_of_minterms right fun m minterm => (same m minterm).2
  have second := admits_of_minterms left fun m minterm => (same m minterm).1
  exact eq_of_admits_both first second

/-- All minterms of `x0*~x2` lie in `x0`, and not all of those of `x0` in `x0*~x2`. -/
theorem admits_iff_minterms_narrower :
    (∀ m : Cube, m.IsMinterm 3 → (ofLiterals [.normal 0, .complement 2]).admits m = true →
      (ofLiterals [.normal 0]).admits m = true) ∧
    ¬ ∀ m : Cube, m.IsMinterm 3 → (ofLiterals [.normal 0]).admits m = true →
      (ofLiterals [.normal 0, .complement 2]).admits m = true := by
  have wider := (admits_iff_minterms 3 (ofLiterals [.normal 0])
    (ofLiterals [.normal 0, .complement 2]) (by decide) (by decide)).2.1
  have narrower := (admits_iff_minterms 3 (ofLiterals [.normal 0, .complement 2])
    (ofLiterals [.normal 0]) (by decide) (by decide)).2.1
  exact ⟨wider.1 (by decide), fun all => absurd (narrower.2 all) (by decide)⟩

end Cube

end TwoLevel
