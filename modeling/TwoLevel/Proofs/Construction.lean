import TwoLevel.Proofs.Cubes

/-!
How cubes are built. A search by halves finds the place of a variable among ascending literals, or
the place where a literal on it keeps the order. Lists that are built through such searches alone are
the literals of the cubes that the operations make, so what the operations do can be said by
membership.
-/

namespace TwoLevel

/-! ## Searches by halves -/

/-- The place of a variable among literals, or the place that is free for it. -/
inductive Position where
  | taken (place : Nat)
  | free (place : Nat)

def Position.skip (skipped : Nat) : Position → Position
  | taken place => taken (skipped + place)
  | free place => free (skipped + place)

/-- Looks at the literal in the middle, and goes on in one of the halves beside it. -/
def bisect (var : Nat) (literals : List Literal) : Position :=
  match _ : literals.drop (literals.length / 2) with
  | [] => .free 0
  | l :: after =>
      if var < l.var then bisect var (literals.take (literals.length / 2))
      else if l.var < var then (bisect var after).skip (literals.length / 2 + 1)
      else .taken (literals.length / 2)
termination_by literals.length
decreasing_by
  all_goals
    have length := congrArg List.length ‹literals.drop (literals.length / 2) = l :: after›
    simp only [List.length_drop, List.length_cons, List.length_take] at *
    omega

/-- The position of a variable: that of a literal on it, or between those before and after it. -/
inductive Locates (var : Nat) : List Literal → Position → Prop
  | taken (before : List Literal) (l : Literal) (after : List Literal) (same : l.var = var) :
      Locates var (before ++ l :: after) (.taken before.length)
  | free (before after : List Literal) (below : ∀ l ∈ before, l.var < var)
      (above : ∀ l ∈ after, var < l.var) : Locates var (before ++ after) (.free before.length)

namespace Locates

variable {var : Nat} {literals before after : List Literal} {position : Position}

theorem append (located : Locates var before position) (above : ∀ l ∈ after, var < l.var) :
    Locates var (before ++ after) position := by
  cases located with
  | taken front l back same =>
      rw [List.append_assoc]
      exact .taken front l (back ++ after) same
  | free front back below inner =>
      rw [List.append_assoc]
      exact .free front (back ++ after) below
        fun l member => (List.mem_append.1 member).elim (inner l) (above l)

theorem skip (located : Locates var after position) (before : List Literal)
    (below : ∀ l ∈ before, l.var < var) :
    Locates var (before ++ after) (position.skip before.length) := by
  cases located with
  | taken front l back same =>
      rw [← List.append_assoc, Position.skip, ← List.length_append]
      exact .taken (before ++ front) l back same
  | free front back inner above =>
      rw [← List.append_assoc, Position.skip, ← List.length_append]
      exact .free (before ++ front) back
        (fun l member => (List.mem_append.1 member).elim (below l) (inner l)) above

end Locates

theorem middle {literals after : List Literal} {l : Literal}
    (split : literals.drop (literals.length / 2) = l :: after) :
    ∃ before, literals.take (literals.length / 2) = before ∧
      before.length = literals.length / 2 ∧ literals = before ++ l :: after := by
  refine ⟨_, rfl, ?_, by rw [← split, List.take_append_drop]⟩
  rw [List.length_take]
  omega

theorem bisect_locates (var : Nat) {literals : List Literal}
    (ascending : literals.Pairwise (fun l m => l.var < m.var)) :
    Locates var literals (bisect var literals) := by
  fun_induction bisect var literals with
  | case1 literals none =>
      have empty : literals = [] := by
        have length := congrArg List.length none
        rw [List.length_drop, List.length_nil] at length
        exact List.length_eq_zero_iff.1 (by omega)
      subst empty
      exact .free [] [] (by simp) (by simp)
  | case2 literals l after split less ih =>
      obtain ⟨before, half, -, whole⟩ := middle split
      rw [half] at ih ⊢
      rw [whole] at ascending ⊢
      obtain ⟨first, second, -⟩ := List.pairwise_append.1 ascending
      obtain ⟨later, -⟩ := List.pairwise_cons.1 second
      exact (ih first).append (List.forall_mem_cons.2 ⟨less, fun m member =>
        Nat.lt_trans less (later m member)⟩)
  | case3 literals l after split _ less ih =>
      obtain ⟨before, -, length, whole⟩ := middle split
      rw [← length, whole, List.append_cons]
      rw [whole] at ascending
      obtain ⟨-, second, across⟩ := List.pairwise_append.1 ascending
      obtain ⟨-, last⟩ := List.pairwise_cons.1 second
      have located := (ih last).skip (before ++ [l]) fun k member =>
        (List.mem_append.1 member).elim
          (fun early => Nat.lt_trans (across k early l List.mem_cons_self) less)
          fun here => List.mem_singleton.1 here ▸ less
      rwa [List.length_append] at located
  | case4 literals l after split high low =>
      obtain ⟨before, -, length, whole⟩ := middle split
      rw [← length, whole]
      exact .taken before l after (by omega)

/-! ## Lists built through searches -/

/-- The polarity of a variable that a search finds. -/
def found (var : Nat) (literals : List Literal) : Option Polarity :=
  match bisect var literals with
  | .taken place => literals[place]?.map (·.polarity)
  | .free _ => none

/-- The literals with one more, where a search finds its variable free. -/
def placed (l : Literal) (literals : List Literal) : List Literal :=
  match bisect l.var literals with
  | .taken _ => literals
  | .free place => literals.take place ++ l :: literals.drop place

/-- The literals without the given one, if a search finds it. -/
def removed (l : Literal) (literals : List Literal) : List Literal :=
  if found l.var literals = some l.polarity then literals.filter (· ≠ l) else literals

namespace Cube

variable {c : Cube} {k l : Literal} {var : Nat} {literals before after : List Literal}

theorem place_append (below : ∀ m ∈ before, m.var < l.var) :
    place l (before ++ after) = before ++ place l after := by
  induction before with
  | nil => rfl
  | cons m before ih =>
      obtain ⟨here, later⟩ := List.forall_mem_cons.1 below
      simp only [List.cons_append, place, here.not_gt, here.ne', if_false, ih later]

theorem place_between (below : ∀ m ∈ before, m.var < l.var) (above : ∀ m ∈ after, l.var < m.var) :
    place l (before ++ after) = before ++ l :: after := by
  rw [place_append below]
  cases after with
  | nil => rfl
  | cons m after => rw [place, if_pos (above m List.mem_cons_self)]

theorem place_of_taken (below : ∀ m ∈ before, m.var < l.var) (same : k.var = l.var) :
    place l (before ++ k :: after) = before ++ k :: after := by
  rw [place_append below, place, if_neg (by omega), if_pos same.symm]

theorem placed_eq (ascending : literals.Pairwise (fun l m => l.var < m.var)) :
    placed l literals = place l literals := by
  have located := bisect_locates l.var ascending
  unfold placed
  generalize bisect l.var literals = position at *
  cases located with
  | taken before k after same =>
      obtain ⟨-, -, across⟩ := List.pairwise_append.1 ascending
      have below : ∀ m ∈ before, m.var < l.var := fun m member =>
        same ▸ across m member k List.mem_cons_self
      exact (place_of_taken below same).symm
  | free before after below above =>
      simp only [List.take_left, List.drop_left, place_between below above]

theorem found_eq (ascending : literals.Pairwise (fun l m => l.var < m.var)) :
    found var literals = polarityIn var literals := by
  have located := bisect_locates var ascending
  unfold found
  generalize bisect var literals = position at *
  cases located with
  | taken before l after same =>
      subst same
      have member : l ∈ before ++ l :: after := by simp
      rw [(polarityIn_eq_some ascending).2 member]
      simp
  | free before after below above =>
      symm
      rw [Option.eq_none_iff_forall_ne_some]
      intro p known
      rcases List.mem_append.1 ((polarityIn_eq_some ascending).1 known) with early | late
      · exact Nat.lt_irrefl var (below _ early)
      · exact Nat.lt_irrefl var (above _ late)

theorem erase_of_not_mem (absent : l ∉ c.literals) : c.erase l = c := by
  apply eq_of_literals
  exact List.filter_eq_self.2 fun k member => by
    have other : k ≠ l := fun same => absent (same ▸ member)
    simpa using other

theorem removed_eq (c : Cube) (l : Literal) : removed l c.literals = (c.erase l).literals := by
  simp only [removed, found_eq c.ascending, polarityIn_eq_some c.ascending]
  split
  · rfl
  · rename_i absent
    rw [erase_of_not_mem absent]

theorem foldl_placed (given : List Literal) (c : Cube) :
    given.foldl (fun literals l => placed l literals) c.literals =
      (given.foldl insert c).literals := by
  induction given generalizing c with
  | nil => rfl
  | cons l rest ih =>
      rw [List.foldl_cons, List.foldl_cons, placed_eq c.ascending]
      exact ih (c.insert l)

theorem literalsFrom_eq (first : Nat) (values : List Bool) :
    literalsFrom first values =
      (values.zipIdx first).map fun entry => ⟨entry.2, .ofValue entry.1⟩ := by
  induction values generalizing first with
  | nil => rfl
  | cons value rest ih => rw [literalsFrom, ih, List.zipIdx_cons, List.map_cons]

end Cube

/-- The ways to build a cube. -/
inductive Recipe where
  | universal
  | ofLiterals (given : List Literal)
  | ofBits (values : List Bool)
  | insert (rest : Recipe) (l : Literal)
  | erase (rest : Recipe) (l : Literal)

namespace Recipe

def cube : Recipe → Cube
  | universal => .universal
  | ofLiterals given => .ofLiterals given
  | ofBits values => .ofBits values
  | insert rest l => rest.cube.insert l
  | erase rest l => rest.cube.erase l

/-- The list that the recipe makes through searches by halves, which nothing keeps in order but the
places that the searches return. -/
def literals : Recipe → List Literal
  | universal => []
  | ofLiterals given => given.foldl (fun literals l => placed l literals) []
  | ofBits values => values.zipIdx.map fun entry => ⟨entry.2, .ofValue entry.1⟩
  | insert rest l => placed l rest.literals
  | erase rest l => removed l rest.literals

theorem literals_eq (r : Recipe) : r.literals = r.cube.literals := by
  induction r with
  | universal => rfl
  | ofLiterals given => exact Cube.foldl_placed given .universal
  | ofBits values => exact (Cube.literalsFrom_eq 0 values).symm
  | insert rest l ih =>
      rw [literals, ih]
      exact Cube.placed_eq rest.cube.ascending
  | erase rest l ih =>
      rw [literals, ih]
      exact Cube.removed_eq rest.cube l

end Recipe

/-! ## Adding and removing a literal -/

namespace Cube

variable {a b c : Cube} {k l : Literal} {var : Nat} {given other : List Literal}

theorem insert_of_fixes (fixed : c.fixes l.var = true) : c.insert l = c := by
  obtain ⟨k, member, same⟩ := fixes_iff.1 fixed
  obtain ⟨before, after, split⟩ := List.append_of_mem member
  have ascending := c.ascending
  rw [split] at ascending
  obtain ⟨-, -, across⟩ := List.pairwise_append.1 ascending
  apply eq_of_literals
  change place l c.literals = c.literals
  rw [split]
  exact place_of_taken (fun m early => same ▸ across m early k List.mem_cons_self) same

theorem mem_insert : k ∈ (c.insert l).literals ↔
    k ∈ c.literals ∨ k = l ∧ c.fixes l.var = false := by
  cases fixed : c.fixes l.var with
  | true => simp [insert_of_fixes fixed]
  | false => simp [mem_insert_of_free fixed, or_comm]

theorem fixes_insert : (c.insert l).fixes var = true ↔ c.fixes var = true ∨ l.var = var := by
  simp only [fixes_iff, mem_insert]
  constructor
  · rintro ⟨k, old | ⟨rfl, -⟩, same⟩
    · exact .inl ⟨k, old, same⟩
    · exact .inr same
  · rintro (⟨k, old, same⟩ | rfl)
    · exact ⟨k, .inl old, same⟩
    · cases fixed : c.fixes l.var with
      | true =>
          obtain ⟨k, old, same⟩ := fixes_iff.1 fixed
          exact ⟨k, .inl old, same⟩
      | false => exact ⟨l, .inr ⟨rfl, rfl⟩, rfl⟩

theorem not_mem_of_free (free : c.fixes l.var = false) : l ∉ c.literals := fun member => by
  have fixed := fixes_iff.2 ⟨l, member, rfl⟩
  simp [free] at fixed

theorem mem_erase : k ∈ (c.erase l).literals ↔ k ∈ c.literals ∧ k ≠ l := by
  simp [erase]

theorem fixes_erase_of_mem (member : l ∈ c.literals) : (c.erase l).fixes l.var = false := by
  rw [← Bool.not_eq_true, fixes_iff]
  rintro ⟨k, kept, same⟩
  obtain ⟨own, different⟩ := mem_erase.1 kept
  exact different (eq_of_var_eq own member same)

theorem perm_insert (free : c.fixes l.var = false) :
    (c.insert l).literals.Perm (l :: c.literals) := by
  have fresh : (l :: c.literals).Nodup := List.nodup_cons.2 ⟨not_mem_of_free free, c.nodup_literals⟩
  refine (List.perm_ext_iff_of_nodup (c.insert l).nodup_literals fresh).2 fun k => ?_
  rw [mem_insert_of_free free, List.mem_cons]

theorem insert_erase (member : l ∈ c.literals) : (c.erase l).insert l = c := by
  refine eq_of_mem_iff fun k => ?_
  rw [mem_insert_of_free (fixes_erase_of_mem member), mem_erase]
  by_cases same : k = l <;> simp [same, member]

theorem erase_insert (free : c.fixes l.var = false) : (c.insert l).erase l = c := by
  refine eq_of_mem_iff fun k => ?_
  rw [mem_erase, mem_insert_of_free free]
  have absent := not_mem_of_free free
  by_cases same : k = l <;> simp [same, absent]

theorem perm_erase (member : l ∈ c.literals) : c.literals.Perm (l :: (c.erase l).literals) := by
  have added := perm_insert (fixes_erase_of_mem member)
  rwa [insert_erase member] at added

theorem fixes_insert_of_ne (apart : l.var ≠ var) : (c.insert l).fixes var = c.fixes var := by
  rw [Bool.eq_iff_iff, fixes_insert, or_iff_left apart]

theorem insert_comm (apart : k.var ≠ l.var) : (c.insert k).insert l = (c.insert l).insert k := by
  refine eq_of_mem_iff fun m => ?_
  rw [mem_insert, mem_insert, mem_insert, mem_insert, fixes_insert_of_ne apart,
    fixes_insert_of_ne apart.symm, or_right_comm]

/-! ## Literals given in a list -/

/-- A variable that is free at first gets the first literal on it. -/
theorem mem_foldl_insert : l ∈ (given.foldl insert c).literals ↔
    l ∈ c.literals ∨ c.fixes l.var = false ∧ given.find? (·.var == l.var) = some l := by
  induction given generalizing c with
  | nil => simp
  | cons g rest ih =>
      rw [List.foldl_cons, ih, mem_insert, List.find?_cons]
      by_cases same : g.var = l.var
      -- `g` decides: the variable is fixed from here on
      · have fixed : (c.insert g).fixes l.var = true := fixes_insert.2 (.inr same)
        simp only [fixed, same, beq_self_eq_true, Option.some.injEq, eq_comm, Bool.false_eq_true,
          false_and, or_false, and_comm]
      · have other : l ≠ g := fun equal => same (equal ▸ rfl)
        simp only [fixes_insert_of_ne same, other, false_and, or_false, beq_eq_false_iff_ne.2 same]

theorem mem_ofLiterals :
    l ∈ (ofLiterals given).literals ↔ given.find? (·.var == l.var) = some l := by
  rw [ofLiterals, mem_foldl_insert]
  simp [universal, fixes, polarityOf?, polarityIn]

/-- Without opposite literals every given literal is kept. -/
theorem mem_ofLiterals_of_agreeing (agreeing : ∀ k ∈ given, ∀ l ∈ given, k.opposes l = false) :
    l ∈ (ofLiterals given).literals ↔ l ∈ given := by
  rw [mem_ofLiterals]
  refine ⟨List.mem_of_find?_eq_some, fun member => ?_⟩
  obtain ⟨k, first⟩ : ∃ k, given.find? (·.var == l.var) = some k :=
    Option.isSome_iff_exists.1 (List.find?_isSome.2 ⟨l, member, by simp⟩)
  have same : k.var = l.var := by simpa using List.find?_some first
  have agree := agreeing k (List.mem_of_find?_eq_some first) l member
  have equal : k = l := by
    obtain ⟨var, p⟩ := k
    obtain ⟨_, q⟩ := l
    simp_all [Literal.opposes]
  rw [first, equal]

theorem ofLiterals_perm (reordered : given.Perm other)
    (agreeing : ∀ k ∈ given, ∀ l ∈ given, k.opposes l = false) :
    ofLiterals given = ofLiterals other := by
  refine eq_of_mem_iff fun l => ?_
  have still : ∀ k ∈ other, ∀ l ∈ other, k.opposes l = false := fun k first l second =>
    agreeing k (reordered.mem_iff.2 first) l (reordered.mem_iff.2 second)
  rw [mem_ofLiterals_of_agreeing agreeing, mem_ofLiterals_of_agreeing still, reordered.mem_iff]

/-- How adding and removing literals change a cube. -/
structure Laws (c : Cube) : Prop where
  insert_fixed : ∀ l : Literal, c.fixes l.var = true → c.insert l = c
  insert_free : ∀ l : Literal, c.fixes l.var = false → (c.insert l).literals.Perm (l :: c.literals)
  erase_absent : ∀ l : Literal, c.contains l = false → c.erase l = c
  erase_present : ∀ l : Literal, c.contains l = true → c.literals.Perm (l :: (c.erase l).literals)
  erase_insert : ∀ l : Literal, c.fixes l.var = false → (c.insert l).erase l = c
  insert_erase : ∀ l : Literal, c.contains l = true → (c.erase l).insert l = c
  insert_insert : ∀ k l : Literal, k.var ≠ l.var → (c.insert k).insert l = (c.insert l).insert k

theorem laws (c : Cube) : c.Laws where
  insert_fixed _ := insert_of_fixes
  insert_free _ := perm_insert
  erase_absent _ absent := erase_of_not_mem fun member => by simp [contains_iff.2 member] at absent
  erase_present _ present := perm_erase (contains_iff.1 present)
  erase_insert _ := erase_insert
  insert_erase _ present := insert_erase (contains_iff.1 present)
  insert_insert _ _ := insert_comm

end Cube

/-! ## Everything that recipes make -/

/-- The answers of a cube about its literals are those of the list that the recipe builds, found by
searches or by looking at all of it. -/
structure Recipe.Faithful (r : Recipe) : Prop where
  ascending : r.literals.Pairwise (fun l m => l.var < m.var)
  literals : r.cube.literals = r.literals
  contains : ∀ l, r.cube.contains l = true ↔ l ∈ r.literals
  fixes : ∀ var, r.cube.fixes var = true ↔ ∃ l ∈ r.literals, l.var = var
  polarity : ∀ var p, r.cube.polarityOf? var = some p ↔ ⟨var, p⟩ ∈ r.literals
  searched : ∀ var, found var r.literals = r.cube.polarityOf? var

theorem Recipe.faithful (r : Recipe) : r.Faithful where
  ascending := r.literals_eq ▸ r.cube.ascending
  literals := r.literals_eq.symm
  contains l := by rw [Cube.contains_iff, r.literals_eq]
  fixes var := by rw [Cube.fixes_iff, r.literals_eq]
  polarity var p := by rw [Cube.polarityOf?_eq_some, r.literals_eq]
  searched var := by rw [r.literals_eq, Cube.found_eq r.cube.ascending, Cube.polarityOf?]

/-- Whatever builds a cube, its literals ascend and are found as members of a list are. Of the
literals given in a list the first one on each variable is kept, so that the order of a list without
opposite literals does not matter. A literal is added on a free variable only and nothing else
changes, so that adding and removing it undo each other. -/
theorem Recipe.lawful :
    (∀ r : Recipe, r.Faithful ∧ r.cube.Laws) ∧
      (∀ (given : List Literal) (l : Literal),
        l ∈ (Cube.ofLiterals given).literals ↔ given.find? (·.var == l.var) = some l) ∧
      ∀ given other : List Literal, given.Perm other →
        (∀ k ∈ given, ∀ l ∈ given, k.opposes l = false) →
          Cube.ofLiterals given = Cube.ofLiterals other :=
  ⟨fun r => ⟨r.faithful, r.cube.laws⟩, fun _ _ => Cube.mem_ofLiterals,
    fun _ _ => Cube.ofLiterals_perm⟩

/-- A list with a repeated literal in another order, and a cube without the opposite literal that was
given later and without the literal that was removed. -/
theorem Recipe.lawful_reordered :
    let given : List Literal := [.normal 2, .complement 0, .normal 2]
    let other : List Literal := [.complement 0, .normal 2, .normal 2]
    let r : Recipe := .erase (.ofLiterals [.normal 1, .complement 1, .complement 0]) (.complement 0)
    (given.Perm other ∧ (∀ k ∈ given, ∀ l ∈ given, k.opposes l = false) ∧
        Cube.ofLiterals given = Cube.ofLiterals other) ∧
      r.cube.contains (.normal 1) = true ∧
      (r.cube.fixes 0 = false ∧ (r.cube.insert (.normal 0)).erase (.normal 0) = r.cube) := by
  intro given other r
  have reordered : given.Perm other := by decide
  have agreeing : ∀ k ∈ given, ∀ l ∈ given, k.opposes l = false := by decide
  have free : r.cube.fixes 0 = false := by decide
  obtain ⟨each, -, orders⟩ := Recipe.lawful
  obtain ⟨faithful, laws⟩ := each r
  have built : .normal 1 ∈ r.literals := by
    rw [← faithful.literals]
    decide
  exact ⟨⟨reordered, agreeing, orders given other reordered agreeing⟩,
    (faithful.contains _).2 built, free, laws.erase_insert _ free⟩

end TwoLevel
