/-!
# Chronicles

Sessions and buses write down what happens, the latest entry first. What holds of such a record is
often said of each entry together with the older ones.
-/

namespace Stacking

variable {α : Type} {R : α → List α → Prop} {entries : List α}

/-- Something holds of each entry and the older ones. -/
def Throughout (R : α → List α → Prop) (entries : List α) : Prop :=
  ∀ newer a older, entries = newer ++ a :: older → R a older

theorem throughout_nil (R : α → List α → Prop) : Throughout R [] := by
  intro newer a older h
  simp at h

theorem Throughout.cons {a : α} (h : Throughout R entries) (ha : R a entries) :
    Throughout R (a :: entries) := by
  rintro (_ | ⟨a', newer⟩) b older heq
  · obtain ⟨rfl, rfl⟩ := List.cons.inj heq
    exact ha
  · obtain ⟨-, heq⟩ := List.cons.inj heq
    exact h newer b older heq

end Stacking
