import Mathlib.Logic.Relation
import SymSan.LabelTable

/-!
# `dfsan_has_label`

The search for a label in an expression goes on with the first operand if there is one and returns
what it finds there. It looks at the second operand only where the first one is concrete. At the
bounds of the stack, whose labels lie above all others, it stops the process.
-/

namespace HasLabel

open LabelTable Relation

variable {info : Nat → LabelInfo} {top l e k : Nat}

/-- `dfsan_has_label`; no result stands for a search that has not ended after `fuel` calls, and
`some none` for one that dies in `dfsan_check_label`. -/
def dfsanHasLabel (info : Nat → LabelInfo) (top : Nat) : Nat → Nat → Nat → Option (Option Bool)
  | 0, _, _ => none
  | fuel + 1, label, elem =>
    if label = kInitializingLabel ∨ elem = kInitializingLabel then some (some false)
    else if label = elem then some (some true)
    else if top ≤ label then some none
    else if (info label).l1 ≠ 0 then dfsanHasLabel info top fuel (info label).l1 elem
    else if (info label).l2 ≠ 0 then dfsanHasLabel info top fuel (info label).l2 elem
    else some (some false)

/-- The labels in a record. The second field of a load is a number of consecutive labels. -/
def Child (info : Nat → LabelInfo) (l k : Nat) : Prop :=
  k ≠ 0 ∧ (k = (info l).l1 ∨ if (info l).op = .load then
    (info l).l1 ≤ k ∧ k < (info l).l1 + (info l).l2 else k = (info l).l2)

/-- A label is in the expression of another one. -/
def Occurs (info : Nat → LabelInfo) (l k : Nat) : Prop := ReflTransGen (Child info) l k

/-- The first symbolic operand. -/
def firstOperand (info : Nat → LabelInfo) (l : Nat) : Nat :=
  if (info l).l1 ≠ 0 then (info l).l1 else (info l).l2

/-- Topological order: records only mention earlier labels and bounds of the stack, and a load has
a first label. -/
structure Ordered (info : Nat → LabelInfo) (top : Nat) : Prop where
  const : ∀ k, ¬ Child info 0 k
  before : ∀ l k, l < top → Child info l k → k < l ∨ top ≤ k ∧ k < kInitializingLabel
  load : ∀ l, (info l).op = .load → (info l).l1 ≠ 0
  room : 0 < top ∧ top ≤ kInitializingLabel

/-- The label at which the search goes on. -/
def Next (info : Nat → LabelInfo) (top l k : Nat) : Prop :=
  l < top ∧ k ≠ 0 ∧ k = firstOperand info l

lemma next_unique : Relator.RightUnique (Next info top) :=
  fun _ _ _ first second => first.2.2.trans second.2.2.symm

/-- What a search returns. -/
structure Ends (info : Nat → LabelInfo) (top l e : Nat) (r : Option Bool) : Prop where
  found : r = some true ↔ ReflTransGen (Next info top) l e
  dies : r = none ↔ ¬ ReflTransGen (Next info top) l e ∧
    ∃ k, ReflTransGen (Next info top) l k ∧ top ≤ k

lemma ends_here (stops : ∀ k, ¬ Next info top l k) (other : l ≠ e) :
    Ends info top l e (if top ≤ l then none else some false) := by
  have stays : ∀ j, ReflTransGen (Next info top) l j → l = j := by
    intro j path
    rcases ReflTransGen.cases_head path with here | ⟨k, next, -⟩
    · exact here
    · exact absurd next (stops k)
  have missed : ¬ ReflTransGen (Next info top) l e := fun path => other (stays e path)
  split
  · next above =>
    exact ⟨iff_of_false nofun missed, iff_of_true rfl ⟨missed, l, .refl, above⟩⟩
  · next below =>
    refine ⟨iff_of_false (by simp) missed, iff_of_false nofun ?_⟩
    rintro ⟨-, k, path, above⟩
    exact below (stays k path ▸ above)

lemma Ends.step {r : Option Bool} (next : Next info top l k) (other : l ≠ e)
    (ends : Ends info top k e r) : Ends info top l e r := by
  have path : ∀ j, l ≠ j →
      (ReflTransGen (Next info top) l j ↔ ReflTransGen (Next info top) k j) := by
    intro j other
    refine ⟨fun path => ?_, fun rest => .head next rest⟩
    rcases ReflTransGen.cases_head path with here | ⟨m, next', rest⟩
    · exact absurd here other
    · rwa [next_unique next next']
  have bounds : (∃ j, ReflTransGen (Next info top) l j ∧ top ≤ j) ↔
      ∃ j, ReflTransGen (Next info top) k j ∧ top ≤ j := by
    refine exists_congr fun j => and_congr_left fun above => path j fun same => ?_
    exact absurd next.1 (by omega)
  exact ⟨ends.found.trans (path e other).symm, by rw [ends.dies, path e other, bounds]⟩

section

variable (ordered : Ordered info top)

include ordered

lemma next_child (next : Next info top l k) : Child info l k := by
  obtain ⟨-, ne, here⟩ := next
  unfold firstOperand at here
  split at here
  · exact ⟨ne, .inl here⟩
  · next zero => exact ⟨ne, .inr (by rwa [if_neg fun load => zero (ordered.load l load)])⟩

lemma next_occurs (path : ReflTransGen (Next info top) l e) : Occurs info l e :=
  ReflTransGen.mono (fun _ k (step : Next info top _ k) => next_child ordered step) l e path

/-- A label with an operand has a first one. -/
lemma next_of_child (below : l < top) (child : Child info l k) :
    Next info top l (firstOperand info l) := by
  refine ⟨below, fun zero => ?_, rfl⟩
  unfold firstOperand at zero
  split at zero
  · next some => exact some zero
  next none =>
  obtain ⟨ne, here | here⟩ := child
  · exact none (here ▸ ne)
  · rw [if_neg fun load => none (ordered.load l load)] at here
    exact ne (here.trans zero)

lemma dfsanHasLabel_ends (he : e ≠ kInitializingLabel) {fuel : Nat} (hl : l ≠ kInitializingLabel)
    (pos : 0 < fuel) (enough : l < top → l + 1 < fuel) :
    ∃ r, dfsanHasLabel info top fuel l e = some r ∧ Ends info top l e r := by
  induction fuel generalizing l with
  | zero => exact absurd pos (Nat.not_lt_zero _)
  | succ fuel ih =>
    rw [dfsanHasLabel, if_neg (by omega)]
    by_cases same : l = e
    · rw [if_pos same, same]
      exact ⟨_, rfl, iff_of_true rfl .refl, iff_of_false nofun fun both => both.1 .refl⟩
    rw [if_neg same]
    by_cases above : top ≤ l
    · rw [if_pos above]
      have stops : ∀ k, ¬ Next info top l k := fun k next => absurd next.1 (by omega)
      have ends := ends_here stops same
      rw [if_pos above] at ends
      exact ⟨none, rfl, ends⟩
    rw [if_neg above]
    have step : ∀ k, Next info top l k → ∃ r, dfsanHasLabel info top fuel k e = some r ∧
        Ends info top l e r := by
      intro k next
      have before := ordered.before l k next.1 (next_child ordered next)
      have room := ordered.room
      obtain ⟨r, run, ends⟩ := @ih k (by omega) (by omega) (by omega)
      exact ⟨r, run, ends.step next same⟩
    split
    · next first => exact step _ ⟨by omega, first, (if_pos first).symm⟩
    next first =>
    split
    · next second => exact step _ ⟨by omega, second, (if_neg first).symm⟩
    next second =>
    have stops : ∀ k, ¬ Next info top l k := by
      rintro k ⟨-, ne, here⟩
      rw [firstOperand, if_neg first] at here
      exact second (here ▸ ne)
    have ends := ends_here stops same
    rw [if_neg above] at ends
    exact ⟨some false, rfl, ends⟩

/-- Operands are smaller where no bounds of the stack occur. -/
lemma Occurs.le (below : ∀ k, Occurs info l k → k < top) (occurs : Occurs info l e) : e ≤ l := by
  induction occurs with
  | refl => exact Nat.le_refl l
  | tail path child ih =>
    have lt := ordered.before _ _ (below _ path) child
    have := below _ (path.tail child)
    omega

/-- In such an expression the search meets every label. -/
lemma path_of_occurs (chain : ∀ k, Occurs info l k → k < top ∧
      ∀ j, Child info k j → Occurs info (firstOperand info k) j) (occurs : Occurs info l e) :
    ReflTransGen (Next info top) l e := by
  induction l using Nat.strong_induction_on with
  | _ l ih =>
    rcases ReflTransGen.cases_head occurs with rfl | ⟨m, child, rest⟩
    · exact .refl
    obtain ⟨below, first⟩ := chain l .refl
    have next := next_of_child ordered below child
    have child' := next_child ordered next
    have lt := (ordered.before l _ below child').resolve_right
      fun above => absurd (chain _ (.single child')).1 (by omega)
    refine .head next (ih _ lt (fun k occurs => chain k (.head child' occurs)) ?_)
    exact (first m child).trans rest

/-- If the search meets every label, an operand comes after the first one. -/
lemma occurs_of_paths (below : ∀ k, Occurs info l k → k < top)
    (paths : ∀ k, Occurs info l k → ReflTransGen (Next info top) l k) (occurs : Occurs info l k)
    (child : Child info k e) : Occurs info (firstOperand info k) e := by
  have later : Occurs info l e := occurs.tail child
  have lt := (ordered.before k e (below k occurs) child).resolve_right
    fun above => absurd (below e later) (by omega)
  rcases ReflTransGen.total_of_right_unique next_unique (paths k occurs) (paths e later) with
    onward | back
  · rcases ReflTransGen.cases_head onward with rfl | ⟨m, next, rest⟩
    · omega
    · exact next.2.2 ▸ next_occurs ordered rest
  · have := Occurs.le ordered (fun i inside => below i (later.trans inside))
      (next_occurs ordered back)
    omega

end

/-- Two bytes, their sum, and the first of them widened. -/
def sum (l : Nat) : LabelInfo :=
  match l with
  | 3 => ⟨1, 2, 0, 0, .add, 8, 0⟩
  | 4 => ⟨1, 0, 0, 0, .zext, 16, 0⟩
  | _ => ⟨0, 0, l - 1, 0, .input, 8, 0⟩

end HasLabel
