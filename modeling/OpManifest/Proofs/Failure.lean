import Mathlib.Data.List.Forall2

/-!
# Computations that can fail

What the answer of a computation tells of the parts that it is made of: a
sequence of two (`bind_eq_ok`) and the same computation for every item of a list
(`mapM_eq_ok`, `exists_of_mapM_error`).  Such a list and the answers for it are
related item by item (`forall₂_of_mem`).
-/

namespace OpManifest

variable {ε α β : Type}

/-! ## Answers -/

theorem exists_ok_of_any {result : Except ε α} {p : α → Bool}
    (h : result.toOption.any p = true) : ∃ a, result = .ok a ∧ p a = true := by
  cases result with
  | error e => simp [Except.toOption] at h
  | ok a => exact ⟨a, rfl, by simpa [Except.toOption] using h⟩

theorem eq_ok_of_toOption {result : Except ε α} {a : α} (h : result.toOption = some a) :
    result = .ok a := by
  cases result with
  | error e => cases h
  | ok other => exact congrArg Except.ok (Option.some.inj h)

/-! ## Sequences -/

/-- A sequence succeeds if both of its parts do. -/
theorem bind_eq_ok {run : Except ε α} {next : α → Except ε β} {b : β} :
    run >>= next = .ok b ↔ ∃ a, run = .ok a ∧ next a = .ok b := by
  cases run <;> simp [bind, Except.bind]

/-- A sequence fails in its first part, or in the second after the first. -/
theorem bind_eq_error {run : Except ε α} {next : α → Except ε β} {e : ε} :
    run >>= next = .error e ↔ run = .error e ∨ ∃ a, run = .ok a ∧ next a = .error e := by
  cases run <;> simp [bind, Except.bind]

/-- What is made of an answer is made of one that there is. -/
theorem map_eq_ok {run : Except ε α} {f : α → β} {b : β} :
    f <$> run = .ok b ↔ ∃ a, run = .ok a ∧ f a = b := by
  cases run <;> simp

/-- What is made of an answer fails where the answer does. -/
theorem map_eq_error {run : Except ε α} {f : α → β} {e : ε} :
    f <$> run = .error e ↔ run = .error e := by
  cases run <;> simp

/-! ## Lists -/

/-- A list of computations succeeds if each of them does. -/
theorem mapM_eq_ok {f : α → Except ε β} {as : List α} {bs : List β} :
    as.mapM f = .ok bs ↔ List.Forall₂ (fun a b => f a = .ok b) as bs := by
  induction as generalizing bs with
  | nil => cases bs <;> simp [pure, Except.pure]
  | cons a as ih =>
    rw [List.mapM_cons, bind_eq_ok]
    cases bs with
    | nil => simp [bind_eq_ok, pure, Except.pure]
    | cons b bs =>
      rw [List.forall₂_cons, ← ih]
      constructor
      · rintro ⟨first, hfirst, hrest⟩
        obtain ⟨others, hothers, hcons⟩ := bind_eq_ok.1 hrest
        obtain ⟨rfl, rfl⟩ := List.cons.inj (Except.ok.inj hcons)
        exact ⟨hfirst, hothers⟩
      · intro h
        exact ⟨b, h.1, bind_eq_ok.2 ⟨bs, h.2, rfl⟩⟩

/-- It succeeds with some answers if each of them succeeds with one. -/
theorem exists_mapM_eq_ok {f : α → Except ε β} {as : List α} :
    (∃ bs, as.mapM f = .ok bs) ↔ ∀ a ∈ as, ∃ b, f a = .ok b := by
  induction as with
  | nil => exact ⟨fun _ => nofun, fun _ => ⟨[], rfl⟩⟩
  | cons a as ih =>
    rw [List.forall_mem_cons, ← ih]
    constructor
    · rintro ⟨bs, h⟩
      obtain ⟨b, rest, hfirst, hrest, rfl⟩ := List.forall₂_cons_left_iff.1 (mapM_eq_ok.1 h)
      exact ⟨⟨b, hfirst⟩, rest, mapM_eq_ok.2 hrest⟩
    · rintro ⟨⟨b, hfirst⟩, rest, hrest⟩
      exact ⟨b :: rest, mapM_eq_ok.2 (.cons hfirst (mapM_eq_ok.1 hrest))⟩

/-- A list of computations fails where the first of them fails. -/
theorem exists_of_mapM_error {f : α → Except ε β} {as : List α} {e : ε}
    (h : as.mapM f = .error e) :
    ∃ front a rest, as = front ++ a :: rest ∧ (∀ b ∈ front, ∃ c, f b = .ok c) ∧ f a = .error e := by
  induction as with
  | nil => cases h
  | cons a as ih =>
    rw [List.mapM_cons, bind_eq_error] at h
    rcases h with hfirst | ⟨c, hfirst, hrest⟩
    · exact ⟨[], a, as, rfl, by simp, hfirst⟩
    · rcases bind_eq_error.1 hrest with hothers | ⟨_, _, hpure⟩
      · obtain ⟨front, b, rest, rfl, hfront, hb⟩ := ih hothers
        exact ⟨a :: front, b, rest, rfl, List.forall_mem_cons.2 ⟨⟨c, hfirst⟩, hfront⟩, hb⟩
      · cases hpure

/-! ## Related lists -/

section

variable {γ : Type} {R S : α → β → Prop} {as : List α} {bs : List β}

/-- Related lists are related in another way if each item of the first one is so to whatever
it is related to. -/
theorem forall₂_of_mem (h : List.Forall₂ R as bs) (himp : ∀ a ∈ as, ∀ b, R a b → S a b) :
    List.Forall₂ S as bs := by
  induction h with
  | nil => exact .nil
  | cons hfirst _ ih =>
    obtain ⟨hhead, htail⟩ := List.forall_mem_cons.1 himp
    exact .cons (hhead _ hfirst) (ih htail)

/-- Lists that are related have the same image if related items have it. -/
theorem map_eq_map_of_forall₂ {f : β → γ} {g : α → γ} (h : List.Forall₂ R as bs)
    (himage : ∀ a ∈ as, ∀ b, R a b → f b = g a) : bs.map f = as.map g := by
  rw [← List.forall₂_eq_eq_eq, List.forall₂_map_left_iff, List.forall₂_map_right_iff]
  exact (forall₂_of_mem h himage).flip

/-- Lists that are related to one list are equal if the relation tells their items apart. -/
theorem eq_of_forall₂ {others : List α} (h : List.Forall₂ R as bs)
    (hother : List.Forall₂ R others bs)
    (hunique : ∀ a ∈ as, ∀ other b, R a b → R other b → a = other) : as = others := by
  induction h generalizing others with
  | nil =>
    cases hother
    rfl
  | cons hfirst _ ih =>
    obtain ⟨hhead, htail⟩ := List.forall_mem_cons.1 hunique
    cases hother with
    | cons hother hothers => rw [hhead _ _ hfirst hother, ih hothers htail]

end

end OpManifest
