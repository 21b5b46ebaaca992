import SymSan.TaskLayout

/-!
# The constraints that are listed for a cell

`finalize` keeps for each cell the constraints to evaluate again when the cell moves. All
constraints that the cell occurs in are listed, except memory comparisons.
-/

namespace CellReaders

open RgdAst OrderedMaps JigsawTask TaskLayout

/-- The constraints that a cell occurs in are listed for it. -/
def ReadersListed (t : SearchTask) (index : Nat) : Prop :=
  ∀ i k, t.constraints[i]? = some k → (true, index) ∈ k.2.inputArgs → i ∈ t.cmap index

/-- Every symbolic argument is the argument of an input byte. -/
def Owned (c : Constraint) : Prop :=
  ∀ (j : Nat) v, c.args.inputArgs[j]? = some (true, v) → ∃ x, c.args.localMap.find x = some j

section Pass

variable {i : Nat} {c : Constraint} {comparison : AstKind} {s s' : Pass}

lemma mapInput_lists {e : Nat × Nat} (h : mapInput i c comparison s e = some s') :
    ∃ cell, s'.inputArgs = s.inputArgs.modify e.2 (fun arg => (arg.1, cell)) ∧
      (∀ j m, m ∈ s.aggregate.cmap j → m ∈ s'.aggregate.cmap j) ∧
      (isMemcmpKind comparison = false → i ∈ s'.aggregate.cmap cell) := by
  obtain ⟨⟨cell, g⟩, made, rfl⟩ := Option.map_eq_some_iff.mp h
  have same := cell_cmap made
  refine ⟨cell, rfl, ?_, ?_⟩
  · intro j m member
    simp only [same]
    split
    · exact member
    by_cases here : j = cell
    · subst here
      rw [Function.update_self]
      exact List.mem_append_left _ member
    · rw [Function.update_of_ne here]
      exact member
  · intro plain
    simp only [plain, Bool.false_eq_true, if_false, Function.update_self]
    exact List.mem_append_right _ (List.mem_singleton_self i)

/-- The loop over the entries lists the constraint for the cell of each argument. -/
structure Lists (i : Nat) (comparison : AstKind) (entries : List (Nat × Nat)) (s s' : Pass) :
    Prop where
  kept : ∀ j m, m ∈ s.aggregate.cmap j → m ∈ s'.aggregate.cmap j
  listed : isMemcmpKind comparison = false → ∀ e, e ∈ entries → ∀ cell,
    s'.inputArgs[e.2]? = some (true, cell) → i ∈ s'.aggregate.cmap cell
  flags : ∀ (j : Nat), s'.inputArgs[j]?.map (·.1) = s.inputArgs[j]?.map (·.1)
  others : ∀ (j : Nat), (∀ e, e ∈ entries → e.2 ≠ j) → s'.inputArgs[j]? = s.inputArgs[j]?

lemma mapInputs_lists {entries : List (Nat × Nat)}
    (h : mapInputs i c comparison entries s = some s') : Lists i comparison entries s s' := by
  induction entries generalizing s with
  | nil =>
    cases h
    refine ⟨fun j m member => member, ?_, fun j => rfl, fun j _ => rfl⟩
    intro _ e member
    cases member
  | cons e rest ih =>
    obtain ⟨_, first, h⟩ := Option.bind_eq_some_iff.mp h
    obtain ⟨_, args, grown, listed⟩ := mapInput_lists first
    have later := ih h
    refine ⟨fun j m member => later.kept j m (grown j m member), ?_, fun j => ?_, fun j apart => ?_⟩
    · intro plain b member cell' found
      by_cases again : ∃ q ∈ rest, q.2 = b.2
      · obtain ⟨q, inside, same⟩ := again
        rw [← same] at found
        exact later.listed plain q inside cell' found
      rcases List.mem_cons.mp member with rfl | inside
      · rw [later.others b.2 fun q inside same => again ⟨q, inside, same⟩, args,
          List.getElem?_modify_eq] at found
        obtain ⟨⟨_, _⟩, -, made⟩ := Option.map_eq_some_iff.mp found
        cases made
        exact later.kept _ i (listed plain)
      · exact absurd ⟨b, inside, rfl⟩ again
    · rw [later.flags j, args, List.getElem?_modify]
      cases s.inputArgs[j]? with
      | none => rfl
      | some arg =>
        split
        · rfl
        · rfl
    · rw [later.others j fun q inside => apart q (List.mem_cons_of_mem _ inside), args,
        List.getElem?_modify_ne _ _ (apart e List.mem_cons_self)]

end Pass

lemma finalizeConstraint_lists {i : Nat} {c : Constraint} {comparison : AstKind}
    {g g' : Aggregate} {cm : ConsMeta} (owned : Owned c)
    (h : finalizeConstraint i c comparison g = some (cm, g')) :
    (∀ j m, m ∈ g.cmap j → m ∈ g'.cmap j) ∧
      (isMemcmpKind cm.comparison = false → ∀ cell, (true, cell) ∈ cm.inputArgs →
        i ∈ g'.cmap cell) := by
  obtain ⟨s, made, done⟩ := Option.map_eq_some_iff.mp h
  cases done
  have lists := mapInputs_lists made
  refine ⟨lists.kept, fun plain cell reads => ?_⟩
  obtain ⟨j, here⟩ := List.mem_iff_getElem?.mp reads
  have flag := lists.flags j
  rw [here] at flag
  obtain ⟨⟨_, old⟩, original, symbolic⟩ := Option.map_eq_some_iff.mp flag.symm
  cases symbolic
  obtain ⟨x, offset⟩ := owned j old original
  exact lists.listed plain (x, j) (OrderedMap.mem_entries.mpr offset) cell here

variable {constraints : List (Constraint × AstKind)}

lemma finalizeFrom_lists {i : Nat} {g g' : Aggregate} {metas : List (Constraint × ConsMeta)}
    (owned : ∀ p ∈ constraints, Owned p.1)
    (h : finalizeFrom i constraints g = some (metas, g')) :
    ∀ m k, metas[m]? = some k → isMemcmpKind k.2.comparison = false → ∀ cell,
      (true, cell) ∈ k.2.inputArgs → i + m ∈ g'.cmap cell := by
  obtain ⟨-, -, all⟩ := finalizeFrom_rule (I := fun _ _ => True)
    (G := fun j k g => isMemcmpKind k.2.comparison = false → ∀ cell,
      (true, cell) ∈ k.2.inputArgs → j ∈ g.cmap cell)
    (fun i p g cm g' inside _ made =>
      ⟨trivial, (finalizeConstraint_lists (owned p inside) made).2⟩)
    (fun i p g cm g' inside _ made j k good plain cell reads =>
      (finalizeConstraint_lists (owned p inside) made).1 cell j (good plain cell reads)) trivial h
  exact all

/-- `finalize` lists every constraint that a cell occurs in, except memory comparisons. -/
lemma finalize_lists {t : SearchTask} (owned : ∀ p ∈ constraints, Owned p.1)
    (finalized : finalize constraints = some t) {index : Nat}
    (free : ∀ k ∈ t.constraints, isMemcmpKind k.2.comparison = true →
      (true, index) ∉ k.2.inputArgs) : ReadersListed t index := by
  obtain ⟨⟨_, g⟩, made, done⟩ := Option.map_eq_some_iff.mp finalized
  cases done
  have listed := finalizeFrom_lists owned made
  intro i k found reads
  cases memory : isMemcmpKind k.2.comparison with
  | true => exact absurd reads (free k (List.mem_of_getElem? found) memory)
  | false =>
    have here := listed i k found memory index reads
    rw [Nat.zero_add] at here
    exact here

end CellReaders
