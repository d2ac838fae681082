import CallFill.Offer.Candidate

/-!
# What a call resolves to

The same target binds a call and gives the group of the methods that it may mean.  So a call is
unresolved if its group is empty, and resolves if one place of the group alone has a method of as
many parameters as there are arguments.  Otherwise the group is left behind as it is.
-/

namespace CallFill

namespace Resolution

variable {group group' : List Method} {arity : Nat} {m : Method}

/-- A method takes so many parameters, and no other place of the group has one that does. -/
def Sole (group : List Method) (arity : Nat) (m : Method) : Prop :=
  ∃ i, group[i]? = some m ∧ m.parameters.length = arity ∧
    ∀ (j : Nat) (m' : Method), group[j]? = some m' → m'.parameters.length = arity → j = i

theorem Sole.ne_nil (h : Sole group arity m) : group ≠ [] := by
  rintro rfl
  obtain ⟨i, hi, -⟩ := h
  simp at hi

end Resolution

namespace Scope

open Resolution Offer

end Scope

end CallFill
