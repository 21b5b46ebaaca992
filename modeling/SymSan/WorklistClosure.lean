import Mathlib.Data.Finset.Card
import Mathlib.Logic.Relation

/-!
# Closure by a worklist

A set is closed under a successor function with a stack of the elements whose
successors have not been added yet. Looking up the successors can be refused, which
ends the search. If only finitely many lookups succeed the search ends, and it ends
with exactly the elements that can be reached.
-/

namespace WorklistClosure

open Relation
open List (foldl_cons mem_cons mem_cons_self nodup_cons)

variable {α : Type} [DecidableEq α]

inductive Outcome (α : Type) where
  | closed (seen : Finset α)
  | refused
  | unfinished

/-- A new element goes onto the stack. -/
def visit (state : Finset α × List α) (a : α) : Finset α × List α :=
  if a ∈ state.1 then state else (insert a state.1, a :: state.2)

def explore (next : α → Option (List α)) : Nat → Finset α → List α → Outcome α
  | 0, seen, stack => if stack = [] then .closed seen else .unfinished
  | fuel + 1, seen, stack =>
    match stack with
    | [] => .closed seen
    | a :: stack =>
      match next a with
      | none => .refused
      | some more =>
        let state := more.foldl visit (seen, stack)
        explore next fuel state.1 state.2

variable (next : α → Option (List α))

def Edge (a b : α) : Prop := ∃ more, next a = some more ∧ b ∈ more

section Visit

variable {seen : Finset α} {stack more : List α}

lemma mem_visitAll (x : α) : x ∈ (more.foldl visit (seen, stack)).1 ↔ x ∈ seen ∨ x ∈ more := by
  induction more generalizing seen stack with
  | nil => simp
  | cons a more ih =>
    by_cases known : a ∈ seen
    · simp only [foldl_cons, visit, if_pos known, ih, mem_cons]
      constructor
      · rintro (old | new)
        · exact .inl old
        · exact .inr (.inr new)
      · rintro (old | rfl | new)
        · exact .inl old
        · exact .inl known
        · exact .inr new
    · simp only [foldl_cons, visit, if_neg known, ih, mem_cons, Finset.mem_insert]
      exact or_assoc.trans or_left_comm

lemma mem_visitAll_stack (x : α) :
    x ∈ (more.foldl visit (seen, stack)).2 ↔ x ∈ stack ∨ (x ∈ more ∧ x ∉ seen) := by
  induction more generalizing seen stack with
  | nil => simp
  | cons a more ih =>
    by_cases known : a ∈ seen
    · simp only [foldl_cons, visit, if_pos known, ih, mem_cons]
      constructor
      · rintro (old | ⟨new, fresh⟩)
        · exact .inl old
        · exact .inr ⟨.inr new, fresh⟩
      · rintro (old | ⟨rfl | new, fresh⟩)
        · exact .inl old
        · exact absurd known fresh
        · exact .inr ⟨new, fresh⟩
    · simp only [foldl_cons, visit, if_neg known, ih, mem_cons, Finset.mem_insert, not_or]
      constructor
      · rintro ((rfl | old) | ⟨new, -, fresh⟩)
        · exact .inr ⟨.inl rfl, known⟩
        · exact .inl old
        · exact .inr ⟨.inr new, fresh⟩
      rintro (old | ⟨here | new, fresh⟩)
      · exact .inl (.inr old)
      · exact .inl (.inl here)
      · by_cases here : x = a
        · exact .inl (.inl here)
        · exact .inr ⟨new, here, fresh⟩

lemma nodup_visitAll (nodup : stack.Nodup) (pending : ∀ x ∈ stack, x ∈ seen) :
    (more.foldl visit (seen, stack)).2.Nodup := by
  induction more generalizing seen stack with
  | nil => exact nodup
  | cons a more ih =>
    by_cases known : a ∈ seen
    · simp only [foldl_cons, visit, if_pos known]
      exact ih nodup pending
    simp only [foldl_cons, visit, if_neg known]
    refine ih (nodup_cons.mpr ⟨fun inStack => known (pending a inStack), nodup⟩) ?_
    exact List.forall_mem_cons.mpr
      ⟨Finset.mem_insert_self _ _, fun x old => Finset.mem_insert_of_mem (pending x old)⟩

end Visit

/-! ## The search -/

/-- Everything seen can be reached, and the successors of what has left the stack have
been seen. -/
structure Searching (start seen : Finset α) (stack : List α) : Prop where
  begins : ∀ a, a ∈ start → a ∈ seen
  pending : ∀ x, x ∈ stack → x ∈ seen
  nodup : stack.Nodup
  reached : ∀ x, x ∈ seen → ∃ a, a ∈ start ∧ ReflTransGen (Edge next) a x
  done : ∀ x, x ∈ seen → x ∉ stack → ∃ more, next x = some more ∧ ∀ y, y ∈ more → y ∈ seen

section Search

variable {next : α → Option (List α)} {start seen bound : Finset α} {stack : List α} {a : α}
  {fuel : Nat}

lemma Searching.step {more : List α} (searching : Searching next start seen (a :: stack))
    (found : next a = some more) :
    Searching next start (more.foldl visit (seen, stack)).1 (more.foldl visit (seen, stack)).2 := by
  obtain ⟨begins, pending, nodup, reached, done⟩ := searching
  have inSeen : a ∈ seen := pending a mem_cons_self
  have below : ∀ x ∈ stack, x ∈ seen := fun x inStack =>
    pending x (List.mem_cons_of_mem a inStack)
  refine ⟨fun x inStart => ?_, fun x inStack => ?_, ?_, fun x inside => ?_, fun x inside off => ?_⟩
  · exact (mem_visitAll x).mpr (.inl (begins x inStart))
  · rw [mem_visitAll]
    rcases (mem_visitAll_stack x).mp inStack with old | ⟨new, -⟩
    · exact .inl (below x old)
    · exact .inr new
  · exact nodup_visitAll (nodup_cons.mp nodup).2 below
  · rcases (mem_visitAll x).mp inside with old | new
    · exact reached x old
    · obtain ⟨s, inStart, path⟩ := reached a inSeen
      exact ⟨s, inStart, path.tail ⟨more, found, new⟩⟩
  · rw [mem_visitAll_stack, not_or] at off
    have known : x ∈ seen := by
      rcases (mem_visitAll x).mp inside with old | new
      · exact old
      · by_contra fresh
        exact off.2 ⟨new, fresh⟩
    by_cases here : x = a
    · subst here
      exact ⟨more, found, fun y inMore => (mem_visitAll y).mpr (.inr inMore)⟩
    · obtain ⟨more', found', all⟩ := done x known (by
        rw [mem_cons, not_or]
        exact ⟨here, off.1⟩)
      exact ⟨more', found', fun y inMore => (mem_visitAll y).mpr (.inl (all y inMore))⟩

/-- The elements whose successors are still to be looked up. -/
def remaining (bound seen : Finset α) (stack : List α) : Finset α :=
  bound.filter fun x => x ∉ seen ∨ x ∈ stack

lemma remaining_step (more : List α) (searching : Searching next start seen (a :: stack))
    (inside : a ∈ bound) :
    (remaining bound (more.foldl visit (seen, stack)).1
      (more.foldl visit (seen, stack)).2).card < (remaining bound seen (a :: stack)).card := by
  apply Finset.card_lt_card
  constructor
  · intro x mem
    simp only [remaining, Finset.mem_filter, mem_visitAll, mem_visitAll_stack, not_or,
      mem_cons] at mem ⊢
    refine ⟨mem.1, ?_⟩
    rcases mem.2 with ⟨fresh, -⟩ | old | ⟨-, fresh⟩
    · exact .inl fresh
    · exact .inr (.inr old)
    · exact .inl fresh
  · intro subset
    have popped : a ∈ remaining bound seen (a :: stack) := by
      simp only [remaining, Finset.mem_filter, mem_cons_self, or_true, and_true]
      exact inside
    have still := subset popped
    have inSeen := searching.pending a mem_cons_self
    have off := (nodup_cons.mp searching.nodup).1
    simp only [remaining, Finset.mem_filter, mem_visitAll, mem_visitAll_stack, inSeen, off,
      true_or, not_true_eq_false, and_false, or_false] at still

omit [DecidableEq α] in
lemma Searching.finished (searching : Searching next start seen []) :
    (∀ x, x ∈ seen ↔ ∃ a ∈ start, ReflTransGen (Edge next) a x) ∧ ∀ x ∈ seen, (next x).isSome := by
  refine ⟨fun x => ⟨searching.reached x, ?_⟩, fun x inside => ?_⟩
  · rintro ⟨a, inStart, path⟩
    induction path with
    | refl => exact searching.begins a inStart
    | tail _ edge ih =>
      obtain ⟨_, found, inMore⟩ := edge
      obtain ⟨_, found', all⟩ := searching.done _ ih List.not_mem_nil
      rw [found] at found'
      cases found'
      exact all _ inMore
  · obtain ⟨_, found, -⟩ := searching.done x inside List.not_mem_nil
    rw [found]
    rfl

/-- The search ends with exactly what can be reached, or at a lookup that is refused. -/
lemma Searching.explore (searching : Searching next start seen stack)
    (finite : ∀ a more, next a = some more → a ∈ bound)
    (enough : (remaining bound seen stack).card < fuel) :
    (∃ final, explore next fuel seen stack = .closed final ∧
      (∀ x, x ∈ final ↔ ∃ a ∈ start, ReflTransGen (Edge next) a x) ∧ ∀ x ∈ final, (next x).isSome) ∨
    (explore next fuel seen stack = .refused ∧
      ∃ x a, a ∈ start ∧ ReflTransGen (Edge next) a x ∧ next x = none) := by
  induction fuel generalizing seen stack with
  | zero => omega
  | succ fuel ih =>
    cases stack with
    | nil => exact .inl ⟨seen, rfl, searching.finished⟩
    | cons a stack =>
      simp only [WorklistClosure.explore]
      cases found : next a with
      | none =>
        obtain ⟨s, inStart, path⟩ := searching.reached a (searching.pending a mem_cons_self)
        exact .inr ⟨rfl, a, s, inStart, path, found⟩
      | some more =>
        have fewer := remaining_step more searching (finite a more found)
        exact ih (searching.step found) (by omega)

lemma explore_exact (nodup : stack.Nodup) (all : ∀ x, x ∈ stack ↔ x ∈ start)
    (finite : ∀ a more, next a = some more → a ∈ bound) (enough : bound.card < fuel) :
    (∃ final, explore next fuel start stack = .closed final ∧
      (∀ x, x ∈ final ↔ ∃ a ∈ start, ReflTransGen (Edge next) a x) ∧ ∀ x ∈ final, (next x).isSome) ∨
    (explore next fuel start stack = .refused ∧
      ∃ x a, a ∈ start ∧ ReflTransGen (Edge next) a x ∧ next x = none) := by
  have searching : Searching next start start stack :=
    ⟨fun _ h => h, fun x inStack => (all x).mp inStack, nodup, fun x inside => ⟨x, inside, .refl⟩,
      fun x inside off => absurd ((all x).mpr inside) off⟩
  refine searching.explore finite (Nat.lt_of_le_of_lt ?_ enough)
  exact Finset.card_filter_le _ _

end Search

end WorklistClosure
