import SymSan.DrawnTrees

/-!
# Shape tables

A read records its length as the shape of its first byte and 0 for its other bytes, over
what earlier reads of the constraint have recorded; a task takes the shape of an offset
from the first constraint that has it. Reads may overlap, so that little is left of the
reads. But the bytes of a recorded length are always inputs, of the constraint that
`do_uta_rel` draws and of the task.
-/

namespace ShapeTables

open LabelTable RgdAst OrderedMaps JigsawTask UtaRel TaskLayout DrawnTrees

variable {a : ArgMap} {constraints : List (Constraint × AstKind)} {i v x y : Nat} {c : Constraint}
  {g g' : Aggregate}

/-! ## Constraints -/

/-- The bytes of a recorded length are inputs of the constraint. -/
def Shaped (a : ArgMap) : Prop :=
  ∀ x n, a.shapes x = some n → ∀ k, k < n → (a.localMap.find (x + k)).isSome = true

/-- A loop that maps the bytes of a read one after the other. -/
lemma fold_shaped {step : ArgMap → Nat → ArgMap} {offset length : Nat}
    (shapes : ∀ a i, (step a i).shapes = Function.update a.shapes (offset + i) (some (if i =
      0 then length else 0)))
    (present : ∀ a i x, x = offset + i ∨ (a.localMap.find x).isSome →
      ((step a i).localMap.find x).isSome)
    (shaped : Shaped a) : Shaped ((List.range length).foldl step a) := by
  have rounds : ∀ m,
      (∀ x, (offset ≤ x ∧ x < offset + m) ∨ (a.localMap.find x).isSome →
        (((List.range m).foldl step a).localMap.find x).isSome) ∧
      ∀ x n, ((List.range m).foldl step a).shapes x = some n →
        (x = offset ∧ n = length) ∨ n = 0 ∨ a.shapes x = some n := by
    intro m
    induction m with
    | zero =>
      refine ⟨fun x inside => ?_, fun x n shape => .inr (.inr shape)⟩
      rcases inside with inside | old
      · omega
      · exact old
    | succ m ih =>
      obtain ⟨mapped, recorded⟩ := ih
      rw [List.range_succ, List.foldl_append, List.foldl_cons, List.foldl_nil]
      refine ⟨fun x inside => ?_, fun x n shape => ?_⟩
      · apply present
        by_cases last : x = offset + m
        · exact .inl last
        · exact .inr (mapped x (inside.imp_left fun range => by omega))
      rw [shapes] at shape
      by_cases last : x = offset + m
      · rw [last, Function.update_self] at shape
        by_cases first : m = 0
        · rw [if_pos first] at shape
          exact .inl ⟨by omega, (Option.some.inj shape).symm⟩
        · rw [if_neg first] at shape
          exact .inr (.inl (Option.some.inj shape).symm)
      · rw [Function.update_of_ne last] at shape
        exact recorded x n shape
  obtain ⟨mapped, recorded⟩ := rounds length
  intro x n shape k lt
  apply mapped
  rcases recorded x n shape with ⟨rfl, rfl⟩ | rfl | old
  · exact .inl ⟨Nat.le_add_right .., by omega⟩
  · exact absurd lt (Nat.not_lt_zero k)
  · exact .inr (shaped x n old k lt)

lemma insert_present {m : OrderedMap Nat} (inside : x = y ∨ (m.find x).isSome) :
    ((m.insert y v).find x).isSome := by
  rw [OrderedMap.find_insert]
  by_cases here : x = y
  · rw [if_pos here]
    rfl
  · rw [if_neg here]
    exact inside.resolve_left here

lemma addInput_present (inside : x = y ∨ (a.localMap.find x).isSome) :
    ((a.addInput y v).localMap.find x).isSome := by
  simp only [ArgMap.addInput]
  split
  next known =>
    rcases inside with rfl | old
    · rw [known]
      rfl
    · exact old
  · exact insert_present inside

lemma mapArg_shaped (buf : Nat → BitVec 8) (offset length : Nat) (shaped : Shaped a) :
    Shaped (mapArg buf offset length a) := by
  refine fold_shaped (fun a i => ?_) (fun a i x inside => addInput_present inside) shaped
  simp only [mapByte, ArgMap.setShape, addInput_shapes]

/-! ## Drawing -/

/-- A property of the arguments that everything `do_uta_rel` does to them keeps. -/
structure Kept (P : ArgMap → Prop) : Prop where
  read : ∀ buf offset length a, P a → P (mapArg buf offset length a)
  const : ∀ value a, P a → P (ArgMap.pushConst a value)
  conversion : ∀ offset length a, P a → P ((List.range length).foldl (fakeByte length offset) a)

section Drawing

variable {P : ArgMap → Prop} (kept : Kept P) {ctx : Context} {capacity : Nat}
  {draw : Nat → Draft → Option (AstNode × Draft)} {r : LabelInfo} {s s' : Draft} {t : AstNode}
  {l : Nat}

include kept

section

variable (drawn : ∀ l s t s', draw l s = some (t, s') → P s.args → P s'.args)

include drawn

lemma operandNode_kept {kind : AstKind} {mark side label const other : Nat}
    (h : operandNode ctx capacity draw r kind mark side label const other s = some (t, s'))
    (before : P s.args) : P s'.args := by
  obtain ⟨-, ⟨-, s2, rfl, made⟩ | ⟨-, rfl, -⟩⟩ := operandNode_cases h
  · exact drawn label _ t s2 made before
  · exact kept.const const _ before

lemma operatorNode_kept (h : operatorNode ctx capacity draw l r s = some (t, s'))
    (before : P s.args) : P s'.args := by
  obtain ⟨_, _, _, -, made, ⟨-, rfl, -⟩ | ⟨-, _, made', -⟩⟩ := operatorNode_cases h
  · exact operandNode_kept kept drawn made before
  · exact operandNode_kept kept drawn made' (operandNode_kept kept drawn made before)

end

lemma pushConsts_kept (words : List Nat) (before : P a) : P (words.foldl ArgMap.pushConst a) := by
  induction words generalizing a with
  | nil => exact before
  | cons w rest ih => exact ih (kept.const w a before)

lemma memcmpNode_kept (drawn : ∀ l s t s', draw l s = some (t, s') → P s.args → P s'.args)
    (h : memcmpNode ctx capacity draw l r s = some (t, s')) (before : P s.args) : P s'.args := by
  have added : ∀ {s1 s2 : Draft}, s1.addNode capacity = some s2 → P s1.args → P s2.args := by
    intro s1 s2 made old
    obtain ⟨-, made⟩ := Option.ite_none_left_eq_some.mp made
    cases made
    exact old
  obtain ⟨s1, first, h⟩ := Option.bind_eq_some_iff.mp h
  obtain ⟨⟨left, s2⟩, leftDrawn, h⟩ := Option.bind_eq_some_iff.mp h
  obtain ⟨s3, second, h⟩ := Option.bind_eq_some_iff.mp h
  obtain ⟨⟨right, s4⟩, rightDrawn, done⟩ := Option.map_eq_some_iff.mp h
  cases done
  have afterLeft : P s2.args := by
    split at leftDrawn
    · obtain ⟨⟨_, s'⟩, made, done⟩ := Option.map_eq_some_iff.mp leftDrawn
      cases done
      exact drawn r.l1 s1 left s' made (added first before)
    · obtain ⟨_, -, done⟩ := Option.map_eq_some_iff.mp leftDrawn
      cases done
      exact pushConsts_kept kept _ (added first before)
  exact drawn r.l2 s3 right s4 rightDrawn (added second afterLeft)

lemma doUtaRel_kept {fuel l : Nat} (h : doUtaRel ctx capacity fuel l s = some (t, s'))
    (before : P s.args) : P s'.args := by
  induction fuel generalizing l s t s' with
  | zero => cases h
  | succ fuel ih =>
    have drawn : ∀ l s t s', doUtaRel ctx capacity fuel l s = some (t, s') →
        P s.args → P s'.args := fun _ _ _ _ made => ih made
    rcases doUtaRel_some h with
      (⟨-, -, rfl⟩ | ⟨-, -, made⟩ | ⟨-, -, made⟩) | ⟨-, made⟩ | ⟨-, offset, made⟩
    · exact before
    · cases made
      exact kept.read _ _ _ _ before
    · exact operatorNode_kept kept drawn made before
    · exact memcmpNode_kept kept drawn made before
    · simp only [atoiNode] at made
      split at made
      · cases made
      · cases made
        exact kept.conversion _ _ _ before

end Drawing

/-- A constraint that `do_uta_rel` has drawn, with any reads. -/
def DrawnFrom (c : Constraint) : Prop :=
  ∃ ctx capacity fuel label s,
    doUtaRel ctx capacity fuel label ⟨.empty, [], 1⟩ = some (c.ast, s) ∧ s.args = c.args

lemma DrawnFrom.shaped (drawn : DrawnFrom c) : Shaped c.args := by
  obtain ⟨_, _, _, _, s, made, args⟩ := drawn
  have kept : Kept Shaped :=
    ⟨fun buf offset length _ shaped => mapArg_shaped buf offset length shaped,
      fun _ _ shaped => shaped, fun _ _ _ =>
        fold_shaped (fun _ _ => rfl) fun _ _ _ inside => insert_present inside⟩
  rw [← args]
  refine doUtaRel_kept kept made ?_
  rintro x n ⟨⟩

/-! ## Tasks -/

/-- The bytes of a recorded length have cells. -/
def Closed (g : Aggregate) : Prop :=
  ∀ x i n, g.symMap x = some i → g.shapes x = some n → ∀ k, k < n → ∃ j, g.symMap (x + k) = some j

lemma finalizeConstraint_closed {comparison : AstKind} {cm : ConsMeta} (shaped : Shaped c.args)
    (numbered : Numbered g) (closed : Closed g)
    (h : finalizeConstraint i c comparison g = some (cm, g')) : Numbered g' ∧ Closed g' := by
  obtain ⟨s, made, done⟩ := Option.map_eq_some_iff.mp h
  cases done
  obtain ⟨numbered', grows, new, cells⟩ := mapInputs_cells (s := ⟨g, _, _, _, _⟩) numbered made
  refine ⟨numbered', fun x j n found shape k lt => ?_⟩
  rcases new x j found with old | ⟨-, first⟩
  · rw [grows.shapes x j old] at shape
    obtain ⟨m, there⟩ := closed x j n old shape k lt
    exact ⟨m, grows.symMap _ m there⟩
  · obtain ⟨_, known⟩ := Option.isSome_iff_exists.mp (shaped x n (first.symm.trans shape) k lt)
    exact cells _ (OrderedMap.mem_entries.mpr known)

lemma finalizeFrom_closed {metas : List (Constraint × ConsMeta)}
    (shaped : ∀ p ∈ constraints, Shaped p.1.args) (numbered : Numbered g) (closed : Closed g)
    (h : finalizeFrom i constraints g = some (metas, g')) : Numbered g' ∧ Closed g' := by
  obtain ⟨after, -, -⟩ := finalizeFrom_rule (I := fun _ g => Numbered g ∧ Closed g)
    (G := fun _ _ _ => True)
    (fun i p g cm g' inside before made =>
      ⟨finalizeConstraint_closed (shaped p inside) before.1 before.2 made, trivial⟩)
    (fun _ _ _ _ _ _ _ _ _ _ good => good) ⟨numbered, closed⟩ h
  exact after

/-- In a task, an offset has one cell, and the bytes of a recorded length have cells. -/
lemma finalize_closed {t : SearchTask} (shaped : ∀ p ∈ constraints, Shaped p.1.args)
    (h : finalize constraints = some t) :
    (∀ x i j, IsCell t x i → IsCell t x j → i = j) ∧
      ∀ x i n, IsCell t x i → t.shapes x = some n → ∀ k < n, ∃ j, IsCell t (x + k) j := by
  obtain ⟨⟨_, g⟩, made, done⟩ := Option.map_eq_some_iff.mp h
  cases done
  have nothing : Closed ⟨fun _ => none, [], fun _ => none, fun _ => []⟩ := by
    rintro x i n ⟨⟩
  obtain ⟨numbered, closed⟩ := finalizeFrom_closed shaped numbered_empty nothing made
  constructor
  · intro x i j here there
    exact Option.some.inj (((numbered x i).mpr here).symm.trans ((numbered x j).mpr there))
  · intro x i n cell shape k lt
    obtain ⟨j, found⟩ := closed x i n ((numbered x i).mpr cell) shape k lt
    exact ⟨j, (numbered _ j).mp found⟩

end ShapeTables
