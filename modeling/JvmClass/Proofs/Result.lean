import JvmClass.Error

/-!
# Results

What follows from a computation having gone well: each of its steps has gone well, and what it says
to be under way if it fails makes no difference.
-/

namespace JvmClass.Result

variable {α β : Type}

theorem exists_of_bind {result : Except Error α} {next : α → Except Error β} {value : β}
    (hbind : (result >>= next) = .ok value) :
    ∃ first, result = .ok first ∧ next first = .ok value := by
  cases result with
  | error error => cases hbind
  | ok first => exact ⟨first, rfl, hbind⟩

theorem bind_of_ok {result : Except Error α} {f : α → Except Error β} {value : α}
    {final : Except Error β} (hresult : result = .ok value) (hfinal : f value = final) :
    (result >>= f) = final := by
  rw [hresult]
  exact hfinal

theorem exists_of_map {result : Except Error α} {f : α → β} {value : β}
    (hmap : f <$> result = .ok value) : ∃ first, result = .ok first := by
  cases result with
  | error error => cases hmap
  | ok first => exact ⟨first, rfl⟩

theorem map_eq_ok_iff {result : Except Error α} {f : α → β} {value : β} :
    f <$> result = .ok value ↔ ∃ first, result = .ok first ∧ f first = value := by
  cases result with
  | error error => simp [Functor.map, Except.map]
  | ok first => simp [Functor.map, Except.map]

@[simp] theorem during_eq_ok_iff {activity : Activity} {result : Except Error α} {value : α} :
    during activity result = .ok value ↔ result = .ok value := by
  cases result with
  | error error =>
    constructor <;>
    · intro hok
      cases hok
  | ok found => rfl

/-- Steps that each go well under a condition go well under all of the conditions. -/
theorem mapM_eq_ok_iff {f : α → Except Error β} {condition : α → Prop} {g : α → β}
    (hf : ∀ value result, f value = .ok result ↔ condition value ∧ g value = result)
    {values : List α} {results : List β} :
    values.mapM f = .ok results ↔ (∀ value ∈ values, condition value) ∧ values.map g = results := by
  constructor
  · intro hmapM
    induction values generalizing results with
    | nil => exact ⟨fun _ hvalue => (List.not_mem_nil hvalue).elim, Except.ok.inj hmapM⟩
    | cons value values ih =>
      rw [List.mapM_cons] at hmapM
      obtain ⟨result, hresult, hrest⟩ := exists_of_bind hmapM
      obtain ⟨others, hothers, hresults⟩ := exists_of_bind hrest
      obtain ⟨hvalue, rfl⟩ := (hf value result).1 hresult
      obtain ⟨hvalues, rfl⟩ := ih hothers
      exact ⟨List.forall_mem_cons.2 ⟨hvalue, hvalues⟩, Except.ok.inj hresults⟩
  · rintro ⟨hvalues, rfl⟩
    induction values with
    | nil => rfl
    | cons value values ih =>
      obtain ⟨hvalue, hvalues⟩ := List.forall_mem_cons.1 hvalues
      rw [List.mapM_cons, (hf value _).2 ⟨hvalue, rfl⟩, ih hvalues]
      rfl

theorem exists_of_mapM {f : α → Except Error β} {values : List α} {results : List β}
    (hmapM : values.mapM f = .ok results) {value : α} (hvalue : value ∈ values) :
    ∃ result, f value = .ok result := by
  induction values generalizing results with
  | nil => cases hvalue
  | cons first values ih =>
    rw [List.mapM_cons] at hmapM
    obtain ⟨result, hresult, hrest⟩ := exists_of_bind hmapM
    obtain ⟨others, hothers, -⟩ := exists_of_bind hrest
    cases hvalue with
    | head => exact ⟨result, hresult⟩
    | tail _ hvalue => exact ih hothers hvalue

/-! ### Results that agree -/

/-- Whatever comes out of the first also comes out of the second, which may fail less often. -/
def Refines (first second : Except Error α) : Prop :=
  ∀ value, first = .ok value → second = .ok value

namespace Refines

theorem refl (result : Except Error α) : Refines result result :=
  fun _ hvalue => hvalue

theorem bind {first second : Except Error α} {next other : α → Except Error β}
    (hfirst : Refines first second) (hnext : ∀ value, Refines (next value) (other value)) :
    Refines (first >>= next) (second >>= other) := by
  intro result hbind
  obtain ⟨value, hvalue, hresult⟩ := exists_of_bind hbind
  exact bind_of_ok (hfirst value hvalue) (hnext value result hresult)

theorem map {first second : Except Error α} (f : α → β) (hrefines : Refines first second) :
    Refines (f <$> first) (f <$> second) := by
  intro result hmap
  obtain ⟨value, hvalue, hresult⟩ := map_eq_ok_iff.1 hmap
  exact map_eq_ok_iff.2 ⟨value, hrefines value hvalue, hresult⟩

theorem during {first second : Except Error α} (activity : Activity)
    (hrefines : Refines first second) :
    Refines (Result.during activity first) (Result.during activity second) := by
  intro value hvalue
  rw [during_eq_ok_iff] at hvalue ⊢
  exact hrefines value hvalue

end Refines

end JvmClass.Result
