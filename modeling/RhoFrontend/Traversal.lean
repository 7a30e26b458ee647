/-!
Pre-order visits of anything that has parts of its own kind. A weight that the parts of an item
never reach together bounds the visit.
-/

namespace RhoFrontend

/-- What several items weigh together. -/
def totalWeight {Item : Type} (weight : Item → Nat) : List Item → Nat
  | [] => 0
  | item :: rest => weight item + totalWeight weight rest

section TotalWeight

variable {Item : Type} {weight : Item → Nat}

@[simp] theorem total_weight_nil : totalWeight weight [] = 0 := rfl

@[simp] theorem total_weight_cons (item : Item) (rest : List Item) :
    totalWeight weight (item :: rest) = weight item + totalWeight weight rest := rfl

@[simp] theorem total_weight_append (left right : List Item) :
    totalWeight weight (left ++ right) = totalWeight weight left + totalWeight weight right := by
  induction left with
  | nil => simp
  | cons item rest ih => simp [ih, Nat.add_assoc]

theorem le_total_weight_of_mem {item : Item} {items : List Item} (member : item ∈ items) :
    weight item ≤ totalWeight weight items := by
  induction items with
  | nil => cases member
  | cons head rest ih =>
      rw [total_weight_cons]
      rcases List.mem_cons.1 member with rfl | later
      · omega
      · have := ih later
        omega

end TotalWeight

/-- Visits pending items first to last, and the parts of each directly after it. -/
def visit {Item : Type} (parts : Item → List Item) (weight : Item → Nat)
    (lighter : ∀ item, totalWeight weight (parts item) < weight item) : List Item → List Item
  | [] => []
  | item :: pending => item :: visit parts weight lighter (parts item ++ pending)
termination_by pending => totalWeight weight pending
decreasing_by
  have bound := lighter item
  simp only [total_weight_append, total_weight_cons]
  omega

end RhoFrontend
