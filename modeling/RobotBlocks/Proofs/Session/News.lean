import RobotBlocks.Proofs.Session.Calm

/-! What waiting events tell the references of a declaration: the last of its new names and the last of its new
parameters. Until a reference has heard of them it shows what was declared before. -/
namespace RobotBlocks

structure News where
  name : Option String := none
  params : Option (List Parameter) := none

namespace News

variable {declared : Block}

def followedBy (earlier later : News) : News :=
  ⟨later.name.or earlier.name, later.params.or earlier.params⟩

@[simp] theorem followedBy_none (news : News) : news.followedBy {} = news := by
  simp [followedBy]

@[simp] theorem none_followedBy (news : News) : followedBy {} news = news := by
  simp [followedBy]

theorem followedBy_assoc (first second third : News) :
    (first.followedBy second).followedBy third = first.followedBy (second.followedBy third) := by
  simp [followedBy, Option.or_assoc]

theorem later_eq_none {earlier later : News} (none : earlier.followedBy later = {}) : later = {} := by
  obtain ⟨name, params⟩ := later
  obtain ⟨unnamed, unshaped⟩ := News.mk.inj none
  obtain ⟨rfl, -⟩ := Option.or_eq_none_iff.mp unnamed
  obtain ⟨rfl, -⟩ := Option.or_eq_none_iff.mp unshaped
  rfl

/-- What is told last holds of the block, which declares something. -/
structure Of (news : News) (declared : Block) : Prop where
  name : ∀ {name}, news.name = some name → declared.name = name
  params : ∀ {params}, news.params = some params → declared.extra.params? = some params
  declares : news ≠ {} → declared.extra.params?.isSome = true

theorem Of.silent (declared : Block) : Of {} declared :=
  ⟨nofun, nofun, fun some => absurd rfl some⟩

theorem Of.later {earlier later : News} (holds : (earlier.followedBy later).Of declared) : later.Of declared := by
  refine ⟨fun named => holds.name ?_, fun shaped => holds.params ?_, fun some => holds.declares ?_⟩
  · rw [followedBy, named, Option.some_or]
  · rw [followedBy, shaped, Option.some_or]
  · exact fun none => some (later_eq_none none)

end News

namespace Event

variable {event : Event}

/-- The standard reactions carry new names and new parameters of declarations to the references. -/
def news (event : Event) (d : BlockId) : News :=
  if event.block = some d ∧ event.blockKind.any Kind.isDeclaration = true then
    match event.payload with
    | .fieldChanged field _ new => if field = Field.name then { name := some new } else {}
    | .signatureChanged changes => { params := some (changes.map (·.param)) }
    | _ => {}
  else {}

theorem Quiet.news_eq (quiet : event.Quiet) (d : BlockId) : event.news d = {} := by
  obtain ⟨block, kind, payload⟩ := event
  unfold news
  split
  · next own =>
    obtain ⟨-, declares⟩ := own
    obtain ⟨kind, rfl, declares⟩ := (Option.any_eq_true _ _).mp declares
    cases payload with
    | fieldChanged field old new => exact if_neg (quiet kind rfl declares)
    | signatureChanged changes =>
      cases declares.symm.trans (quiet kind rfl)
    | _ => rfl
  · rfl

/-- News are about a declaration. -/
theorem news_of_other {id d : BlockId} {kind : Kind} {payload : Payload} (other : d ≠ id ∨ kind.isDeclaration = false) :
    (onBlock id kind payload).news d = {} := by
  refine if_neg fun own => ?_
  obtain ⟨block, declares⟩ := own
  rcases other with apart | undeclared
  · exact apart (Option.some.inj block).symm
  · simp [onBlock, undeclared] at declares

theorem news_renamed {d : BlockId} {kind : Kind} (declares : kind.isDeclaration = true) (old : Option String)
    (name : String) : (onBlock d kind (.fieldChanged Field.name old name)).news d = { name := some name } := by
  simp [news, onBlock, declares]

theorem news_reshaped {d : BlockId} {kind : Kind} (declares : kind.isDeclaration = true) (changes : List ParamChange) :
    (onBlock d kind (.signatureChanged changes)).news d = { params := some (changes.map (·.param)) } := by
  simp [news, onBlock, declares]

/-- Whatever tells something is a new name or new parameters of the declaration. -/
theorem of_news {d : BlockId} (told : event.news d ≠ {}) : ∃ kind, kind.isDeclaration = true ∧
    ((∃ old name, event = onBlock d kind (.fieldChanged Field.name old name)) ∨
      ∃ changes, event = onBlock d kind (.signatureChanged changes)) := by
  obtain ⟨block, kind, payload⟩ := event
  unfold news at told
  split at told
  · next own =>
    obtain ⟨block, declares⟩ := own
    cases block
    obtain ⟨kind, rfl, declares⟩ := (Option.any_eq_true _ _).mp declares
    refine ⟨kind, declares, ?_⟩
    cases payload with
    | fieldChanged field old name =>
      by_cases renamed : field = Field.name
      · exact .inl ⟨old, name, by rw [renamed]; rfl⟩
      · exact absurd (if_neg renamed) told
    | signatureChanged changes => exact .inr ⟨changes, rfl⟩
    | _ => exact absurd rfl told
  · exact absurd rfl told

theorem news_created (id : BlockId) (kind : Kind) (d : BlockId) : (onBlock id kind .created).news d = {} :=
  ite_self _

/-- What events in a row tell of a declaration. -/
def newsOf (events : List Event) (d : BlockId) : News :=
  events.foldr (fun event later => (event.news d).followedBy later) {}

theorem newsOf_cons (event : Event) (events : List Event) (d : BlockId) :
    newsOf (event :: events) d = (event.news d).followedBy (newsOf events d) :=
  rfl

theorem newsOf_append (first second : List Event) (d : BlockId) :
    newsOf (first ++ second) d = (newsOf first d).followedBy (newsOf second d) := by
  induction first with
  | nil => exact (News.none_followedBy _).symm
  | cons event first ih => rw [List.cons_append, newsOf_cons, newsOf_cons, ih, News.followedBy_assoc]

theorem newsOf_quiet {events : List Event} (quiet : ∀ event ∈ events, event.Quiet) (d : BlockId) :
    newsOf events d = {} := by
  induction events with
  | nil => rfl
  | cons event events ih =>
    obtain ⟨first, rest⟩ := List.forall_mem_cons.mp quiet
    rw [newsOf_cons, first.news_eq, ih rest, News.followedBy_none]

end Event

/-- The call of a reference that has heard the news. -/
def CallState.hear (call : CallState) (news : News) : CallState :=
  { call with
    name := news.name.getD call.name
    args := news.params.getD call.args }

theorem CallState.hear_followedBy (call : CallState) (earlier later : News) :
    call.hear (earlier.followedBy later) = (call.hear earlier).hear later := by
  obtain ⟨name, params⟩ := later
  cases name <;> cases params <;> rfl

namespace Graph

variable {g g' : Graph} {except : BlockId → Prop}

/-- What the events that wait tell of a declaration. -/
def news (g : Graph) (d : BlockId) : News := Event.newsOf g.pending.toList d

theorem Calm.news_eq (calm : Calm except g g') (d : BlockId) : g'.news d = g.news d := by
  obtain ⟨told, appended, quiet⟩ := calm.told
  rw [news, appended, Event.newsOf_append, Event.newsOf_quiet quiet, News.followedBy_none, news]

theorem news_eq_none (quiet : ∀ event ∈ g.pending.toList, event.Quiet) (d : BlockId) : g.news d = {} :=
  Event.newsOf_quiet quiet d

theorem news_push {event : Event} (appended : g'.pending.toList = g.pending.toList ++ [event]) (d : BlockId) :
    g'.news d = (g.news d).followedBy (event.news d) := by
  rw [news, appended, Event.newsOf_append, Event.newsOf_cons, Event.newsOf_quiet (List.forall_mem_nil _),
    News.followedBy_none, news]

/-- The oldest event is told first. -/
theorem news_cons {event : Event} {pending : EventQueue} (waiting : g.pending.toList = event :: pending.toList)
    (d : BlockId) : g.news d = (event.news d).followedBy (Graph.news { g with pending } d) := by
  rw [news, waiting, Event.newsOf_cons, news]

end Graph
end RobotBlocks
