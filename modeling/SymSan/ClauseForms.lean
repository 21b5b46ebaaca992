import Mathlib.Data.List.Basic

/-!
# Clausal forms

A clausal form is a list of clauses, each a list of atoms. It holds when all the
atoms of one clause hold. Disjunction appends two forms and conjunction combines
their clauses pairwise.
-/

namespace ClauseForms

universe u
variable {α : Type u} {left right : List (List α)} {a : α}

def Sat (holds : α → Prop) (form : List (List α)) : Prop :=
  ∃ clause, clause ∈ form ∧ ∀ a, a ∈ clause → holds a

def Atoms (admitted : α → Prop) (form : List (List α)) : Prop :=
  ∀ clause, clause ∈ form → ∀ a, a ∈ clause → admitted a

/-- Every clause of `left` with every clause of `right`. -/
def product (left right : List (List α)) : List (List α) :=
  left.flatMap fun first => right.map fun second => first ++ second

lemma mem_product {clause : List α} :
    clause ∈ product left right ↔ ∃ first ∈ left, ∃ second ∈ right, first ++ second = clause := by
  simp [product]

lemma product_ne_nil (hl : left ≠ []) (hr : right ≠ []) : product left right ≠ [] := by
  obtain ⟨first, inLeft⟩ := List.exists_mem_of_ne_nil left hl
  obtain ⟨second, inRight⟩ := List.exists_mem_of_ne_nil right hr
  exact List.ne_nil_of_mem (mem_product.mpr ⟨first, inLeft, second, inRight, rfl⟩)

section Satisfaction

variable {holds : α → Prop} {left right : List (List α)}

lemma not_sat_nil : ¬Sat holds [] := by
  rintro ⟨clause, member, -⟩
  cases member

lemma sat_atom : Sat holds [[a]] ↔ holds a := by
  simp [Sat]

lemma sat_append : Sat holds (left ++ right) ↔ Sat holds left ∨ Sat holds right := by
  simp only [Sat, List.mem_append, or_and_right, exists_or]

lemma sat_product : Sat holds (product left right) ↔ Sat holds left ∧ Sat holds right := by
  constructor
  · rintro ⟨clause, member, all⟩
    obtain ⟨first, inLeft, second, inRight, rfl⟩ := mem_product.mp member
    exact ⟨⟨first, inLeft, fun a inFirst => all a (List.mem_append_left _ inFirst)⟩,
      ⟨second, inRight, fun a inSecond => all a (List.mem_append_right _ inSecond)⟩⟩
  rintro ⟨⟨first, inLeft, all1⟩, ⟨second, inRight, all2⟩⟩
  exact ⟨first ++ second, mem_product.mpr ⟨first, inLeft, second, inRight, rfl⟩,
    List.forall_mem_append.mpr ⟨all1, all2⟩⟩

end Satisfaction

section Membership

variable {admitted : α → Prop} {left right : List (List α)}

lemma atoms_nil : Atoms admitted [] := by
  intro clause member
  cases member

lemma atoms_atom (here : admitted a) : Atoms admitted [[a]] := by
  intro clause member b inClause
  rw [List.mem_singleton.mp member] at inClause
  rw [List.mem_singleton.mp inClause]
  exact here

variable (hl : Atoms admitted left) (hr : Atoms admitted right)

include hl hr

lemma atoms_append : Atoms admitted (left ++ right) := List.forall_mem_append.mpr ⟨hl, hr⟩

lemma atoms_product : Atoms admitted (product left right) := by
  intro clause member a inClause
  obtain ⟨first, inLeft, second, inRight, rfl⟩ := mem_product.mp member
  rcases List.mem_append.mp inClause with inFirst | inSecond
  · exact hl first inLeft a inFirst
  · exact hr second inRight a inSecond

end Membership

end ClauseForms
