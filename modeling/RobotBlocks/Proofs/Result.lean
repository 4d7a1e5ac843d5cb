import Mathlib.Logic.Basic

/-! Success of a sequence that may be refused at every step. -/
namespace RobotBlocks

variable {ε α β : Type}

theorem bind_eq_ok {x : Except ε α} {f : α → Except ε β} {b : β} :
    (x >>= f) = .ok b ↔ ∃ a, x = .ok a ∧ f a = .ok b := by
  cases x <;> simp [bind, Except.bind]

theorem bind_eq_error {x : Except ε α} {f : α → Except ε β} {e : ε} :
    (x >>= f) = .error e ↔ x = .error e ∨ ∃ a, x = .ok a ∧ f a = .error e := by
  cases x <;> simp [bind, Except.bind]

theorem pure_eq_ok {a b : α} : (pure a : Except ε α) = .ok b ↔ a = b := by
  simp [pure, Except.pure]

theorem throw_ne_ok {e : ε} {a : α} : (throw e : Except ε α) ≠ .ok a := by
  simp [throw, throwThe, MonadExceptOf.throw]

theorem map_eq_ok {f : α → β} {x : Except ε α} {b : β} :
    x.map f = .ok b ↔ ∃ a, x = .ok a ∧ f a = b := by
  cases x <;> simp [Except.map]

theorem map_eq_error {f : α → β} {x : Except ε α} {e : ε} : x.map f = .error e ↔ x = .error e := by
  cases x <;> simp [Except.map]

theorem toOption_eq_some {x : Except ε α} {a : α} : x.toOption = some a ↔ x = .ok a := by
  cases x <;> simp [Except.toOption]

theorem toBool_iff {x : Except ε α} : x.toBool = true ↔ ∃ a, x = .ok a := by
  cases x <;> simp [Except.toBool]

theorem toOption_getD {x : Except ε α} (succeeds : ∃ a, x = .ok a) (default : α) :
    x = .ok (x.toOption.getD default) := by
  obtain ⟨a, rfl⟩ := succeeds
  rfl

theorem mapError_eq_ok {ε' : Type} {f : ε → ε'} {x : Except ε α} {a : α} :
    x.mapError f = .ok a ↔ x = .ok a := by
  cases x with
  | error e => exact ⟨nofun, nofun⟩
  | ok b =>
    change Except.ok b = Except.ok a ↔ Except.ok b = Except.ok a
    simp only [Except.ok.injEq]

theorem mapError_eq_error {ε' : Type} {f : ε → ε'} {x : Except ε α} {e : ε'} :
    x.mapError f = .error e ↔ ∃ reason, x = .error reason ∧ f reason = e := by
  cases x with
  | error reason =>
    change Except.error (f reason) = Except.error e ↔ _
    simp only [Except.error.injEq, exists_eq_left']
  | ok b => exact ⟨nofun, nofun⟩

theorem mapError_ok {ε' : Type} {f : ε → ε'} {a : α} : (Except.ok a).mapError f = .ok a := rfl

/-- A walk succeeds where every step of it does. -/
theorem exists_mapM_eq_ok {f : α → Except ε β} {items : List α}
    (each : ∀ item ∈ items, ∃ b, f item = .ok b) : ∃ answers, items.mapM f = .ok answers := by
  induction items with
  | nil => exact ⟨[], rfl⟩
  | cons item rest ih =>
    obtain ⟨first, own⟩ := each item (List.mem_cons_self ..)
    obtain ⟨others, later⟩ := ih fun other member => each other (List.mem_cons_of_mem _ member)
    refine ⟨first :: others, ?_⟩
    simp only [List.mapM_cons, bind_eq_ok, pure_eq_ok]
    exact ⟨first, own, others, later, rfl⟩

theorem mapM_eq_ok {f : α → Except ε β} {g : α → β} {items : List α}
    (each : ∀ item ∈ items, f item = .ok (g item)) : items.mapM f = .ok (items.map g) := by
  induction items with
  | nil => rfl
  | cons item rest ih =>
    simp only [List.mapM_cons, bind_eq_ok, pure_eq_ok]
    exact ⟨_, each item (List.mem_cons_self ..), _,
      ih fun other member => each other (List.mem_cons_of_mem _ member), rfl⟩

/-- What every step of a run keeps, a run that ends keeps. -/
theorem foldlM_keeps {P : β → Prop} {step : β → α → Except ε β} {items : List α} {b c : β}
    (keeps : ∀ item b c, P b → step b item = .ok c → P c) (holds : P b)
    (ran : items.foldlM step b = .ok c) : P c := by
  induction items generalizing b with
  | nil => exact pure_eq_ok.mp ran ▸ holds
  | cons item rest ih =>
    simp only [List.foldlM_cons, bind_eq_ok] at ran
    obtain ⟨next, first, later⟩ := ran
    exact ih (keeps _ _ _ holds first) later

theorem ok_bind {a : α} {f : α → Except ε β} : ((.ok a : Except ε α) >>= f) = f a := rfl

/-- What follows a refusal is never reached. -/
theorem throw_bind {e : ε} {f : α → Except ε β} : ((throw e : Except ε α) >>= f) = throw e := rfl

theorem refuse_eq_ok {refused : Prop} [Decidable refused] {e : ε} {x : Except ε α} {a : α} :
    (if refused then throw e else x) = .ok a ↔ ¬ refused ∧ x = .ok a := by
  by_cases h : refused <;> simp [h, throw_ne_ok]

theorem require_eq_ok {required : Prop} [Decidable required] {e : ε} {x : Except ε α} {a : α} :
    (if required then x else throw e) = .ok a ↔ required ∧ x = .ok a := by
  by_cases h : required <;> simp [h, throw_ne_ok]

/-- Two runs that succeed with related results or are refused for the same reason. -/
inductive Parallel {ε α β : Type} (R : α → β → Prop) : Except ε α → Except ε β → Prop where
  | ok {a : α} {b : β} (related : R a b) : Parallel R (.ok a) (.ok b)
  | error (e : ε) : Parallel R (.error e) (.error e)

namespace Parallel

variable {γ δ : Type} {R : α → β → Prop} {S : γ → δ → Prop} {x : Except ε α} {y : Except ε β}
  {f : α → Except ε γ} {g : β → Except ε δ}

theorem bind (first : Parallel R x y) (next : ∀ a b, R a b → Parallel S (f a) (g b)) :
    Parallel S (x >>= f) (y >>= g) := by
  cases first with
  | ok related => exact next _ _ related
  | error e => exact .error e

theorem left (runs : Parallel R x y) : Parallel (fun a b => x = .ok a ∧ R a b) x y := by
  cases runs with
  | ok related => exact .ok ⟨rfl, related⟩
  | error e => exact .error e

theorem map {h : α → γ} {k : β → δ} (runs : Parallel R x y) (next : ∀ a b, R a b → S (h a) (k b)) :
    Parallel S (h <$> x) (k <$> y) := by
  cases runs with
  | ok related => exact .ok (next _ _ related)
  | error e => exact .error e

/-- The same check on both sides. -/
theorem check {z : Except ε α} {f : α → Except ε γ} {g : α → Except ε δ}
    (next : ∀ a, Parallel S (f a) (g a)) : Parallel S (z >>= f) (z >>= g) := by
  cases z with
  | ok a => exact next a
  | error e => exact .error e

end Parallel

end RobotBlocks
