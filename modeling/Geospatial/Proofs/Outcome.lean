import Mathlib.Data.List.Forall2
import Mathlib.Logic.Function.Iterate
import Geospatial.Cancellation

/-! What a sequence of steps gives: results that may be refused, if none of them is, and loops, if
they come to an end; and signals that do not interfere. -/
namespace Geospatial

/-- A loop that takes steps until it has ended comes to what the steps come to by then. -/
theorem repeatM_eq_iterate {σ : Type} [Inhabited σ] {round : σ → Id (σ ⊕ σ)} {step : σ → σ}
    {ended : σ → Bool} {s : σ} {n : ℕ}
    (rounds : ∀ s, round s = if ended s then .inr s else .inl (step s))
    (still : ∀ s, ended s = true → step s = s) (ends : ended (step^[n] s) = true) :
    Id.run (repeatM round s) = step^[n] s := by
  have once (s : σ) : Id.run (repeatM round s) =
      if ended s then s else Id.run (repeatM round (step s)) := by
    rw [repeatM_eq_of_monadTail, repeatM.body, rounds]
    split <;> rfl
  induction n generalizing s with
  | zero => exact (once s).trans (if_pos ends)
  | succ n ih =>
    rw [once]
    split
    · rename_i here
      exact (Function.iterate_fixed (still s here) _).symm
    · exact ih ends

/-- A step after a test is taken where the test is passed. -/
theorem Outcome.refuse_unless_eq_ok {K α β : Type} {c : Prop} [Decidable c] {f : InputFault K}
    {step : α → Outcome K β} {rest : Outcome K β} {b : β} :
    (if c then refuse f >>= step else rest) = .ok b ↔ ¬c ∧ rest = .ok b := by
  split
  · rename_i refused
    exact ⟨nofun, fun ⟨passed, _⟩ => absurd refused passed⟩
  · rename_i passed
    exact (and_iff_right passed).symm

theorem bind_eq_ok {x : Except ε α} {f : α → Except ε β} {b : β} :
    (x >>= f) = .ok b ↔ ∃ a, x = .ok a ∧ f a = .ok b := by
  cases x with
  | error e => exact ⟨nofun, nofun⟩
  | ok a => exact ⟨fun h => ⟨a, rfl, h⟩, fun ⟨_, same, h⟩ => Except.ok.inj same ▸ h⟩

theorem mapM_eq_ok {α β ε : Type} {read : α → Except ε β} {xs : List α} {ys : List β} :
    xs.mapM read = .ok ys ↔ List.Forall₂ (fun x y => read x = .ok y) xs ys := by
  induction xs generalizing ys with
  | nil =>
    rw [List.mapM_nil, List.forall₂_nil_left_iff]
    exact ⟨fun same => (Except.ok.inj same).symm, fun same => by rw [same]; rfl⟩
  | cons x xs ih =>
    rw [List.mapM_cons, List.forall₂_cons_left_iff]
    cases first : read x with
    | error f => exact ⟨nofun, fun ⟨_, _, read, _⟩ => nomatch read⟩
    | ok y =>
      cases rest : xs.mapM read with
      | error f =>
        refine ⟨nofun, fun ⟨_, _, _, readRest, _⟩ => ?_⟩
        rw [ih.mpr readRest] at rest
        contradiction
      | ok zs =>
        constructor
        · rintro ⟨⟩
          exact ⟨y, zs, rfl, ih.mp rest, rfl⟩
        · rintro ⟨_, _, ⟨⟩, readRest, rfl⟩
          obtain rfl := Except.ok.inj (rest.symm.trans (ih.mpr readRest))
          rfl

/-- The fault of a list is that of the first item that has one. -/
theorem mapM_eq_error {α β ε : Type} {read : α → Except ε β} {xs : List α} {f : ε} :
    xs.mapM read = .error f ↔ ∃ before x after ys, xs = before ++ x :: after ∧
      List.Forall₂ (fun x y => read x = .ok y) before ys ∧ read x = .error f := by
  constructor
  · intro fails
    induction xs with
    | nil => contradiction
    | cons x xs ih =>
      rw [List.mapM_cons] at fails
      cases first : read x with
      | error e =>
        rw [first] at fails
        cases fails
        exact ⟨[], x, xs, [], rfl, .nil, first⟩
      | ok y =>
        cases rest : xs.mapM read with
        | ok ys =>
          rw [first, rest] at fails
          contradiction
        | error e =>
          rw [first, rest] at fails
          cases fails
          obtain ⟨before, x', after, ys, rfl, sane, later⟩ := ih rest
          exact ⟨x :: before, x', after, y :: ys, rfl, .cons first sane, later⟩
  · rintro ⟨before, x, after, ys, rfl, sane, fails⟩
    rw [List.mapM_append, mapM_eq_ok.mpr sane, List.mapM_cons, fails]
    rfl

theorem exists_of_mem_mapM {α β ε : Type} {f : α → Except ε β} {xs : List α} {ys : List β}
    (made : xs.mapM f = .ok ys) {y : β} (mem : y ∈ ys) : ∃ x ∈ xs, f x = .ok y := by
  have related := mapM_eq_ok.mp made
  clear made
  induction related with
  | nil => contradiction
  | @cons x y' xs ys first _ ih =>
    rcases List.mem_cons.mp mem with rfl | later
    · exact ⟨x, List.mem_cons_self, first⟩
    · obtain ⟨x', here, gives⟩ := ih later
      exact ⟨x', List.mem_cons_of_mem x here, gives⟩

theorem mapM_congr {α β ε : Type} {f g : α → Except ε β} {xs : List α}
    (same : ∀ x ∈ xs, f x = g x) : xs.mapM f = xs.mapM g := by
  induction xs with
  | nil => rfl
  | cons x xs ih =>
    obtain ⟨first, rest⟩ := List.forall_mem_cons.mp same
    rw [List.mapM_cons, List.mapM_cons, first, ih rest]

namespace Signal

variable {K α β : Type} {s : Signal}

theorem check_eq_ok (quiet : s ≠ .triggered) : (s.check : Outcome K Unit) = .ok () := by
  cases s with
  | triggered => contradiction
  | _ => rfl

theorem forEach_eq_ok (quiet : s ≠ .triggered) (f : α → β) (xs : List α) :
    (s.forEach xs fun x => .ok (f x) : Outcome K (List β)) = .ok (xs.map f) := by
  simp only [forEach, check_eq_ok quiet]
  exact List.mapM_pure

/-- A triggered signal stops before the first step, and any other signal after none. -/
theorem forEach_cases (s : Signal) (xs : List α) :
    (s = .triggered ∧ ∀ step : α → Outcome K β, s.forEach xs step = .error .cancelled) ∨
      ∀ f : α → β, (s.forEach xs fun x => .ok (f x) : Outcome K (List β)) = .ok (xs.map f) := by
  by_cases quiet : s = .triggered
  · subst quiet
    cases xs with
    | nil => exact .inr fun _ => rfl
    | cons x xs => exact .inl ⟨rfl, fun _ => rfl⟩
  · exact .inr fun f => forEach_eq_ok quiet f xs

end Signal

end Geospatial
