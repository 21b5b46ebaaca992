import SymSan.CellReaders
import SymSan.ShapeTables

/-!
# The wiring of a task

The arguments of a constraint that `do_uta_rel` has drawn get the cells of their offsets
from `finalize`, however its reads overlap.
-/

namespace TaskWiring

open RgdAst OrderedMaps JigsawTask TaskLayout CellReaders ShapeTables

variable {a : ArgMap} {step : ArgMap → Nat → ArgMap} {c : Constraint}
  {constraints : List (Constraint × AstKind)} {t : SearchTask}

/-! ## Arguments -/

lemma indexed_empty : Indexed .empty := by
  constructor
  · rintro x i ⟨⟩
  · rintro x y i ⟨⟩

lemma indexed_insert (indexed : Indexed a) (x : Nat) {inputs shapes : Nat → Option Nat} :
    Indexed
      ⟨a.localMap.insert x a.inputArgs.length, a.inputArgs ++ [(true, 0)], inputs, shapes⟩ := by
  have old : ∀ y i, a.localMap.find y = some i → i < a.inputArgs.length := by
    intro y i found
    exact (List.getElem?_eq_some_iff.mp (indexed.symbolic y i found)).1
  constructor
  · intro y i found
    rw [OrderedMap.find_insert] at found
    by_cases here : y = x
    · rw [if_pos here] at found
      cases found
      exact List.getElem?_concat_length
    · rw [if_neg here] at found
      rw [List.getElem?_append_left (old y i found)]
      exact indexed.symbolic y i found
  · intro y z i foundY foundZ
    rw [OrderedMap.find_insert] at foundY foundZ
    by_cases hereY : y = x
    · by_cases hereZ : z = x
      · rw [hereY, hereZ]
      · rw [if_pos hereY] at foundY
        rw [if_neg hereZ] at foundZ
        cases foundY
        exact absurd (old z _ foundZ) (Nat.lt_irrefl _)
    · rw [if_neg hereY] at foundY
      by_cases hereZ : z = x
      · rw [if_pos hereZ] at foundZ
        cases foundZ
        exact absurd (old y _ foundY) (Nat.lt_irrefl _)
      · rw [if_neg hereZ] at foundZ
        exact indexed.injective y z i foundY foundZ

lemma indexed_mapByte (buf : Nat → BitVec 8) (length offset : Nat) (indexed : Indexed a)
    (i : Nat) : Indexed (mapByte buf length offset a i) := by
  have added : Indexed (a.addInput (offset + i) (buf (offset + i)).toNat) := by
    simp only [ArgMap.addInput]
    split
    · exact indexed
    · exact indexed_insert indexed _
  exact ⟨added.symbolic, added.injective⟩

lemma foldl_indexed (kept : ∀ a i, Indexed a → Indexed (step a i)) (rounds : List Nat)
    (indexed : Indexed a) : Indexed (rounds.foldl step a) := by
  induction rounds generalizing a with
  | nil => exact indexed
  | cons i rest ih => exact ih (kept a i indexed)

lemma indexed_kept : Kept Indexed := by
  refine ⟨fun buf offset length a indexed => ?_, fun value a indexed => ?_,
    fun offset length a indexed => ?_⟩
  · exact foldl_indexed (fun a i indexed => indexed_mapByte buf length offset indexed i) _ indexed
  · refine ⟨fun x i found => ?_, indexed.injective⟩
    have old := indexed.symbolic x i found
    simp only [ArgMap.pushConst]
    rw [List.getElem?_append_left (List.getElem?_eq_some_iff.mp old).1]
    exact old
  · exact foldl_indexed (fun a i indexed => indexed_insert indexed _) _ indexed

lemma drawn_indexed (drawn : DrawnFrom c) : Indexed c.args := by
  obtain ⟨_, _, _, _, s, made, args⟩ := drawn
  rw [← args]
  exact doUtaRel_kept indexed_kept made indexed_empty

/-! ## Tasks -/

/-- What `finalize` has made of a constraint. -/
structure Routed (t : SearchTask) (k : Constraint × ConsMeta) : Prop where
  symbolic : ∀ x j, k.1.args.localMap.find x = some j →
    ∃ cell, IsCell t x cell ∧ k.2.inputArgs[j]? = some (true, cell)
  constant : ∀ (j : Nat) v, k.1.args.inputArgs[j]? = some (false, v) →
    k.2.inputArgs[j]? = some (false, v)
  flags : ∀ (j : Nat), k.2.inputArgs[j]?.map (·.1) = k.1.args.inputArgs[j]?.map (·.1)

lemma entries_keys (m : OrderedMap Nat) : m.entries.map (·.1) = m.keys := by
  rw [OrderedMap.entries_eq_map m 0, List.map_map]
  exact List.map_id _

lemma finalizeConstraint_flags {i : Nat} {comparison : AstKind} {g g' : Aggregate}
    {cm : ConsMeta} (h : finalizeConstraint i c comparison g = some (cm, g')) :
    ∀ (j : Nat), cm.inputArgs[j]?.map (·.1) = c.args.inputArgs[j]?.map (·.1) := by
  obtain ⟨s, made, done⟩ := Option.map_eq_some_iff.mp h
  cases done
  exact (mapInputs_lists made).flags

/-- An offset has one cell, and the constraints that a cell occurs in are listed in order. -/
lemma finalize_wired (indexed : ∀ p ∈ constraints, Indexed p.1.args)
    (h : finalize constraints = some t) :
    (∀ x i j, IsCell t x i → IsCell t x j → i = j) ∧ (∀ j, (t.cmap j).Pairwise (· < ·)) ∧
      ∀ k ∈ t.constraints, (k.1, k.2.comparison) ∈ constraints ∧ Routed t k := by
  obtain ⟨⟨_, g⟩, made, done⟩ := Option.map_eq_some_iff.mp h
  cases done
  obtain ⟨⟨numbered, ordered, -⟩, -, all⟩ := finalizeFrom_rule
    (I := fun i g => Numbered g ∧ (∀ j, (g.cmap j).Pairwise (· < ·)) ∧ ∀ j m, m ∈ g.cmap j → m < i)
    (G := fun _ k g => (k.1, k.2.comparison) ∈ constraints ∧ Wired g.symMap k ∧
      ∀ (j : Nat), k.2.inputArgs[j]?.map (·.1) = k.1.args.inputArgs[j]?.map (·.1))
    (fun i p g cm g' inside before made => by
      obtain ⟨numbered, ordered, below, -, -, same, wired⟩ := finalizeConstraint_wired
        (indexed p inside) before.1 before.2.1 before.2.2 made
      refine ⟨⟨numbered, ordered, below⟩, ?_, wired, finalizeConstraint_flags made⟩
      rw [same]
      exact inside)
    (fun i p g cm g' inside before made j k good => by
      obtain ⟨-, -, -, grows, -⟩ := finalizeConstraint_wired
        (indexed p inside) before.1 before.2.1 before.2.2 made
      exact ⟨good.1, good.2.1.grow grows.symMap, good.2.2⟩)
    ⟨numbered_empty, fun _ => .nil, fun _ _ member => absurd member List.not_mem_nil⟩ made
  refine ⟨fun x i j here there => ?_, ordered, fun k member => ?_⟩
  · exact Option.some.inj (((numbered x i).mpr here).symm.trans ((numbered x j).mpr there))
  obtain ⟨m, found⟩ := List.mem_iff_getElem?.mp member
  obtain ⟨from_, wired, flags⟩ := all m k found
  refine ⟨from_, fun x j here => ?_, wired.constant, flags⟩
  obtain ⟨cell, at_, arg⟩ := wired.symbolic x j here
  exact ⟨cell, (numbered x cell).mp at_, arg⟩

lemma finalize_routed (drawn : ∀ p ∈ constraints, DrawnFrom p.1)
    (h : finalize constraints = some t) :
    ∀ k ∈ t.constraints, (k.1, k.2.comparison) ∈ constraints ∧ Routed t k :=
  (finalize_wired (fun p inside => drawn_indexed (drawn p inside)) h).2.2

end TaskWiring
