import RobotBlocks.Proofs.ParameterEditor.Composition

/-! Numbers behind the names of parameters. Names are given from the first item on, and a name gets a number if it
was given before: to an item of the same name, or by a number that makes the name of an item further down. The
main result tells the two apart, so that an editor leaves all names alone that are there once exactly if no
number makes a name that is still to come. -/
namespace RobotBlocks

namespace ParameterEditor

open RobotBlocks.Graph

variable {g editor : Graph} {items : List Block} {bases used : List String} {base : String} {i : Nat}
  {declaration : BlockId}

theorem uniqueName_eq_self_iff : uniqueName base used = base ↔ base ∉ used :=
  ⟨fun same taken => uniqueName_not_mem base used (same.symm ▸ taken), uniqueName_of_free⟩

/-- A name that is taken gets the lowest number that makes it new. -/
theorem uniqueName_least (taken : base ∈ used) : ∃ n : Nat, 2 ≤ n ∧ uniqueName base used = base ++ toString n ∧
    ∀ m : Nat, 2 ≤ m → m < n → base ++ toString m ∈ used := by
  rw [uniqueName, if_pos (List.contains_iff_mem.mpr taken)]
  exact Text.firstUnused_least

/-- The names that are given, one after the other. -/
def numbered : List String → List String → List String
  | [], _ => []
  | base :: bases, used => uniqueName base used :: numbered bases (uniqueName base used :: used)

theorem readItems_names (items : List Block) (used : List String) : (readItems items used).map (·.2.param.name)
    = numbered ((items.filter isNamed).map fun item => Text.trim item.name) used := by
  induction items generalizing used with
  | nil => rfl
  | cons item items ih =>
    cases named : isNamed item with
    | false => rw [readItems_unnamed named, ih, List.filter_cons_of_neg (by simp [named])]
    | true => rw [readItems_named named, List.filter_cons_of_pos named, List.map_cons, List.map_cons, ih, numbered]

theorem length_numbered (bases used : List String) : (numbered bases used).length = bases.length := by
  induction bases generalizing used with
  | nil => rfl
  | cons base bases ih => rw [numbered, List.length_cons, ih, List.length_cons]

/-- A name is given against those before it. -/
theorem getElem?_numbered (here : bases[i]? = some base) :
    (numbered bases used)[i]? = some (uniqueName base (((numbered bases used).take i).reverse ++ used)) := by
  induction bases generalizing used i with
  | nil => cases here
  | cons first bases ih =>
    cases i with
    | zero =>
      cases here
      rfl
    | succ i =>
      rw [List.getElem?_cons_succ] at here
      simp only [numbered, List.getElem?_cons_succ, List.take_succ_cons, List.reverse_cons, List.append_assoc,
        List.singleton_append]
      exact ih here

theorem getElem?_numbered_nil (here : bases[i]? = some base) :
    (numbered bases [])[i]? = some (uniqueName base ((numbered bases []).take i).reverse) := by
  rw [getElem?_numbered here, List.append_nil]

theorem mem_take_iff {names : List String} {name : String} :
    name ∈ names.take i ↔ ∃ j < i, names[j]? = some name := by
  rw [List.mem_iff_getElem?]
  refine exists_congr fun j => ?_
  rw [List.getElem?_take]
  split
  · next before => simp [before]
  · next beyond => simp [beyond]

/-- A name becomes another one exactly if it was given before. -/
theorem numbered_ne_iff {name : String} (here : bases[i]? = some base)
    (got : (numbered bases [])[i]? = some name) : name ≠ base ↔ base ∈ (numbered bases []).take i := by
  rw [getElem?_numbered_nil here] at got
  rw [← Option.some.inj got, ne_eq, uniqueName_eq_self_iff, not_not, List.mem_reverse]

/-- What the names of items become. -/
structure Numbers (bases names : List String) : Prop where
  length : names.length = bases.length
  /-- A name that is not kept gets the lowest number that makes it new. -/
  number : ∀ {i : Nat} {base name}, bases[i]? = some base → names[i]? = some name → name ≠ base →
    ∃ n : Nat, 2 ≤ n ∧ name = base ++ toString n ∧ ∀ m : Nat, 2 ≤ m → m < n → base ++ toString m ∈ names.take i
  /-- It is not kept exactly if an item before has the same name, or if the number of an item before makes it. -/
  renamed_iff : ∀ {i : Nat} {base name}, bases[i]? = some base → names[i]? = some name →
    (name ≠ base ↔ base ∈ bases.take i ∨ ∃ j < i, bases[j]? ≠ some base ∧ names[j]? = some base)
  /-- Items keep the names that no item before them has, exactly if no number makes a name that is still to
  come. -/
  kept_iff : (∀ (i : Nat) base, bases[i]? = some base → base ∉ bases.take i → names[i]? = some base) ↔
    ∀ (j i : Nat) base, j < i → bases[j]? ≠ some base → names[j]? = some base → bases[i]? ≠ some base

theorem numbers_numbered (distinct : (numbered bases []).Nodup) : Numbers bases (numbered bases []) := by
  have renamed : ∀ {i : Nat} {base name}, bases[i]? = some base → (numbered bases [])[i]? = some name →
      (name ≠ base ↔ base ∈ bases.take i ∨
        ∃ j < i, bases[j]? ≠ some base ∧ (numbered bases [])[j]? = some base) := by
    intro i base name here got
    rw [numbered_ne_iff here got, mem_take_iff, mem_take_iff]
    constructor
    · rintro ⟨j, before, made⟩
      by_cases same : bases[j]? = some base
      · exact .inl ⟨j, before, same⟩
      · exact .inr ⟨j, before, same, made⟩
    · rintro (⟨j, before, same⟩ | ⟨j, before, -, made⟩)
      · -- The item before keeps the name, or else the name was given before that as well.
        have made := getElem?_numbered_nil same
        by_cases earlier : base ∈ (numbered bases []).take j
        · obtain ⟨k, first, held⟩ := mem_take_iff.mp earlier
          exact ⟨k, first.trans before, held⟩
        · rw [uniqueName_of_free (mt List.mem_reverse.mp earlier)] at made
          exact ⟨j, before, made⟩
      · exact ⟨j, before, made⟩
  refine ⟨length_numbered bases [], fun {i base name} here got differs => ?_, renamed, fun kept => ?_, fun apart => ?_⟩
  · have taken := (numbered_ne_iff here got).mp differs
    rw [getElem?_numbered_nil here] at got
    obtain ⟨n, least, same, passed⟩ := uniqueName_least (List.mem_reverse.mpr taken)
    exact ⟨n, least, (Option.some.inj got).symm.trans same, fun m later before =>
      List.mem_reverse.mp (passed m later before)⟩
  · intro j i base before differs made here
    -- The first item of that name keeps it, so no number can make it.
    obtain ⟨front, rest, rfl, first⟩ := List.eq_append_cons_of_mem (List.mem_of_getElem? here)
    have owns : (front ++ base :: rest)[front.length]? = some base := by simp
    have keeps := kept front.length base owns (by simpa using first)
    have within := (List.getElem?_eq_some_iff.mp made).1
    have same := (List.getElem?_inj within distinct).mp (made.trans keeps.symm)
    exact differs (same ▸ owns)
  · intro i base here first
    have got := getElem?_numbered_nil here
    by_contra differs
    rw [got, Option.some.injEq] at differs
    rcases (renamed here got).mp differs with same | ⟨j, before, other, made⟩
    · exact first same
    · exact apart j i base before other made here

theorem compose_cases {composed : Composed} (composes : compose g declaration editor = .ok composed) :
    ∃ container, container? editor = some container ∧
      composed.changes = (readItems (listed editor container) []).map (·.2) := by
  simp only [compose, bind_eq_ok] at composes
  obtain ⟨params, -, composes⟩ := composes
  split at composes
  · next container holds =>
    simp only [bind_eq_ok, pure_eq_ok] at composes
    obtain ⟨graph, -, editor', -, rfl⟩ := composes
    exact ⟨container, holds, rfl⟩
  · exact absurd composes throw_ne_ok

/-- The parameters that an editor gives have names of their own, without blanks around them. -/
theorem compose_names {composed : Composed}
    (composes : compose g declaration editor = .ok composed) : (composed.changes.map (·.param.name)).Nodup ∧
      ∀ name ∈ composed.changes.map (·.param.name), Text.trim name = name := by
  obtain ⟨container, -, same⟩ := compose_cases composes
  rw [same, List.map_map]
  refine ⟨(readItems_distinct (listed editor container) []).1, fun name member => ?_⟩
  obtain ⟨entry, read, rfl⟩ := List.mem_map.mp member
  exact (readItems_trimmed _ [] entry read).1

/-- The names that the items of a container ask for. -/
def givenNames (editor : Graph) (container : BlockId) : List String :=
  ((listed editor container).filter isNamed).map fun item => Text.trim item.name

/-- Applying a parameter editor gives the items of the container their names one after the other. -/
theorem compose_numbers {composed : Composed} (composes : compose g declaration editor = .ok composed) :
    ∃ container, container? editor = some container ∧
      Numbers (givenNames editor container) (composed.changes.map (·.param.name)) := by
  obtain ⟨container, holds, same⟩ := compose_cases composes
  refine ⟨container, holds, ?_⟩
  have names := readItems_names (listed editor container) []
  rw [same, List.map_map]
  refine names.symm ▸ ?_
  exact numbers_numbered (names ▸ (readItems_distinct (listed editor container) []).1)

/-- Of the items a, a and a2 the second one gets the name of the third one, which is there once. -/
theorem compose_numbers_made :
    let edits : List Mutation :=
      [.add .paramContainer .none, .add .paramItem (.paramItem none), .add .paramItem (.paramItem none),
        .add .paramItem (.paramItem (some "a2")), .setField ⟨1⟩ Field.name "a", .setField ⟨2⟩ Field.name "a",
        .setField ⟨3⟩ Field.name "a2", .connectSocket ⟨0⟩ Socket.stack ⟨1⟩, .connectNext ⟨1⟩ ⟨2⟩,
        .connectNext ⟨2⟩ ⟨3⟩]
    let editor := edits.foldl Graph.mutate Graph.empty
    let g := Graph.empty.mutate (.add .methodDef (.default .methodDef))
    ∃ composed, compose g ⟨0⟩ editor = .ok composed ∧ composed.changes.map (·.param.name) = ["a", "a2", "a22"] ∧
      Numbers ["a", "a", "a2"] ["a", "a2", "a22"] := by
  intro edits editor g
  have given : (container? editor).map (givenNames editor) = some ["a", "a", "a2"] := by decide +kernel
  have names : (compose g ⟨0⟩ editor).toOption.map (·.changes.map (·.param.name)) = some ["a", "a2", "a22"] := by
    decide +kernel
  cases composes : compose g ⟨0⟩ editor with
  | error fault =>
    rw [composes] at names
    cases names
  | ok composed =>
    rw [composes] at names
    have same : composed.changes.map (·.param.name) = ["a", "a2", "a22"] := Option.some.inj names
    obtain ⟨container, holds, numbers⟩ := compose_numbers composes
    rw [holds] at given
    rw [same, Option.some.inj given] at numbers
    exact ⟨composed, rfl, same, numbers⟩

end ParameterEditor
end RobotBlocks
