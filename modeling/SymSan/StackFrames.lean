import SymSan.InputLabels
import SymSan.TraceHooks

/-!
# Bounds labels of the stack

With bounds tracing every array or structure on the stack gets a label from the upper end
of the label array. A function saves the top of these labels when it is entered and takes
it back when it returns. The saved tops are in an array of fixed size; an access outside
the array has no result here.

For a reader the array is a stack of saved tops. As long as the calls are nested less than
1024 deep, each return finds the top that its call has saved.
-/

namespace StackFrames

open LabelTable RuntimeOps
open List (length_cons)

/-! ## The model -/

def maxSavedStackEntries : Int := 1024

/-- `__saved_alloca_stack_top` and `__current_saved_stack_index` -/
structure Frames where
  saved : Int → Nat
  current : Int

def Frames.initial : Frames := ⟨fun _ => 0, 0⟩

/-- An index of the array of saved tops. -/
def inBounds (i : Int) : Bool := 0 ≤ i && i < maxSavedStackEntries

lemma inBounds_iff (i : Int) : inBounds i = true ↔ 0 ≤ i ∧ i < 1024 := by
  rw [inBounds, Bool.and_eq_true_iff, decide_eq_true_iff, decide_eq_true_iff]
  rfl

variable (fl : Flags)

/-- `__taint_push_stack_frame`, with the top to be saved. -/
def pushStackFrame (top : Nat) (f : Frames) : Option Frames :=
  if fl.traceBounds then
    if f.current < maxSavedStackEntries then
      if inBounds (f.current + 1) then
        some ⟨Function.update f.saved (f.current + 1) top, f.current + 1⟩
      else none
    else some f
  else some f

/-- `__taint_pop_stack_frame`: the top and what is left. -/
def popStackFrame (top : Nat) (f : Frames) : Option (Nat × Frames) :=
  if fl.traceBounds then
    if inBounds f.current then some (f.saved f.current, { f with current := f.current - 1 })
    else none
  else some (top, f)

/-- The arguments of `__taint_trace_alloca`: the label of the size, the number and size of
the elements and the address. -/
structure AllocaCall where
  l : Nat
  size : Nat
  elemSize : Nat
  base : Nat

/-- The bounds that are recorded for an allocation. -/
def AllocaCall.record (a : AllocaCall) : LabelInfo :=
  ⟨0, a.l, a.base, (a.base + a.size * a.elemSize) % 2 ^ 64, .alloca, 64, 0⟩

def nextBounds (s : Runtime) : Nat := (s.stackTop + (2 ^ 32 - 1)) % 2 ^ 32

/-- `__taint_trace_alloca`: the label and the machine. -/
def traceAlloca (a : AllocaCall) (m : Machine) : Nat × Machine :=
  if fl.traceBounds then
    let top := nextBounds m.table
    (top, ⟨{ m.table with
        info := fun l => if l = top then a.record else m.table.info l
        stackTop := top },
      InputLabels.setLabel m.shadow kInitializingLabel a.base (a.size * a.elemSize % 2 ^ 64)⟩)
  else (0, m)

structure State where
  machine : Machine
  frames : Frames

def State.top (st : State) : Nat := st.machine.table.stackTop

def State.setTop (st : State) (top : Nat) (frames : Frames) : State :=
  ⟨⟨{ st.machine.table with stackTop := top }, st.machine.shadow⟩, frames⟩

def push (st : State) : Option State :=
  (pushStackFrame fl st.top st.frames).map fun frames => ⟨st.machine, frames⟩

def pop (st : State) : Option State :=
  (popStackFrame fl st.top st.frames).map fun (top, frames) => st.setTop top frames

def alloca (a : AllocaCall) (st : State) : State :=
  ⟨(traceAlloca fl a st.machine).2, st.frames⟩

/-- What the instrumented program does to the label table. -/
inductive Action where
  | push
  | pop
  | alloca (a : AllocaCall)
  | call (c : Step)

def act (st : State) : Action → Option State
  | .push => push fl st
  | .pop => pop fl st
  | .alloca a => some (alloca fl a st)
  | .call c => (exec fl c.mem st.machine c.call).map fun m => ⟨m, st.frames⟩

def run (fl : Flags) : State → List Action → Option State
  | st, [] => some st
  | st, a :: rest => (act fl st a).bind fun st => run fl st rest

lemma run_append (st : State) (xs ys : List Action) :
    run fl st (xs ++ ys) = (run fl st xs).bind fun st => run fl st ys := by
  induction xs generalizing st with
  | nil => rfl
  | cons a rest ih =>
    simp only [List.cons_append, run, Option.bind_assoc]
    congr 1
    funext st
    exact ih st

/-! ## The array as a stack -/

/-- The array holds the saved tops, the latest one first; entry 0 is never used. -/
structure Represents (f : Frames) (tops : List Nat) : Prop where
  current : f.current = tops.length
  saved : ∀ (i top : Nat), tops[i]? = some top → f.saved ((tops.length : Int) - i) = top

lemma represents_initial : Represents .initial [] := by
  constructor
  · rfl
  · intro i top found
    simp at found

section Stack

variable {fl : Flags} {f : Frames} {tops : List Nat} (on : fl.traceBounds = true) (top : Nat)

include on top

lemma pushStackFrame_represents (holds : Represents f tops) (room : tops.length + 1 < 1024) :
    ∃ f', pushStackFrame fl top f = some f' ∧ Represents f' (top :: tops) := by
  have level := holds.current
  have below : f.current < maxSavedStackEntries := by
    simp only [maxSavedStackEntries]
    omega
  have inside : inBounds (f.current + 1) = true := (inBounds_iff _).mpr ⟨by omega, by omega⟩
  refine ⟨_, by rw [pushStackFrame, if_pos on, if_pos below, if_pos inside], ?_, ?_⟩
  · simp only [length_cons]
    omega
  intro i value found
  rw [length_cons]
  cases i with
  | zero =>
    obtain rfl : top = value := by simpa using found
    have here : ((tops.length + 1 : Nat) : Int) - (0 : Nat) = f.current + 1 := by omega
    rw [here]
    exact Function.update_self ..
  | succ i =>
    have older : tops[i]? = some value := by simpa using found
    have there : ((tops.length + 1 : Nat) : Int) - (i + 1 : Nat) = tops.length - i := by omega
    have other : (tops.length : Int) - i ≠ f.current + 1 := by omega
    rw [there]
    exact (Function.update_of_ne other ..).trans (holds.saved i value older)

/-- The write of the 1024th saved top is outside the array. -/
lemma pushStackFrame_full (holds : Represents f tops) (full : tops.length = 1023) :
    pushStackFrame fl top f = none := by
  have level := holds.current
  have below : f.current < maxSavedStackEntries := by
    simp only [maxSavedStackEntries]
    omega
  have outside : ¬ inBounds (f.current + 1) = true := by
    rw [inBounds_iff]
    omega
  rw [pushStackFrame, if_pos on, if_pos below, if_neg outside]

lemma popStackFrame_represents {saved : Nat} (holds : Represents f (saved :: tops))
    (room : tops.length + 1 < 1024) :
    ∃ f', popStackFrame fl top f = some (saved, f') ∧ Represents f' tops := by
  have level := holds.current
  rw [length_cons] at level
  have inside : inBounds f.current = true := (inBounds_iff _).mpr ⟨by omega, by omega⟩
  have latest : f.saved f.current = saved := by
    have first := holds.saved 0 saved rfl
    rw [level]
    simpa using first
  refine ⟨_, by rw [popStackFrame, if_pos on, if_pos inside, latest], ?_, ?_⟩
  · simp only
    omega
  intro i value found
  have older := holds.saved (i + 1) value (by simpa using found)
  rw [length_cons] at older
  have there : ((tops.length + 1 : Nat) : Int) - (i + 1 : Nat) = tops.length - i := by omega
  rw [there] at older
  exact older

end Stack

/-! ## Nested calls -/

/-- A well-nested sequence of frames and allocations. -/
inductive Nested where
  | done
  | alloca (a : AllocaCall) (rest : Nested)
  | frame (body rest : Nested)

namespace Nested

def actions : Nested → List Action
  | done => []
  | alloca a rest => .alloca a :: rest.actions
  | frame body rest => .push :: (body.actions ++ .pop :: rest.actions)

def depth : Nested → Nat
  | done => 0
  | alloca _ rest => rest.depth
  | frame body rest => max (body.depth + 1) rest.depth

end Nested

/-- Every access to the array is inside it, and every return restores the top that was
there at the call. -/
def Balanced (fl : Flags) : Nested → State → Prop
  | .done, _ => True
  | .alloca a rest, st => Balanced fl rest (alloca fl a st)
  | .frame body rest, st => ∃ inner ready after,
      push fl st = some inner ∧ Balanced fl body inner ∧
      run fl inner body.actions = some ready ∧ pop fl ready = some after ∧
      after.top = st.top ∧ Balanced fl rest after

section Nesting

variable {fl : Flags} {st : State} {tops : List Nat}

section

variable (on : fl.traceBounds = true)

include on

lemma push_represents (holds : Represents st.frames tops) (room : tops.length + 1 < 1024) :
    ∃ inner, push fl st = some inner ∧ Represents inner.frames (st.top :: tops) := by
  obtain ⟨pushed, pushes, above⟩ := pushStackFrame_represents on st.top holds room
  exact ⟨⟨st.machine, pushed⟩, by rw [push, pushes]; rfl, above⟩

lemma pop_represents {saved : Nat} (holds : Represents st.frames (saved :: tops))
    (room : tops.length + 1 < 1024) :
    ∃ after, pop fl st = some after ∧ after.top = saved ∧ Represents after.frames tops := by
  obtain ⟨popped, pops, below⟩ := popStackFrame_represents on st.top holds room
  exact ⟨st.setTop saved popped, by rw [pop, pops]; rfl, rfl, below⟩

variable (t : Nested) (holds : Represents st.frames tops)

include t holds

lemma run_nested (fits : tops.length + t.depth < 1024) :
    Balanced fl t st ∧ ∃ after, run fl st t.actions = some after ∧
      Represents after.frames tops := by
  induction t generalizing st tops with
  | done => exact ⟨trivial, st, rfl, holds⟩
  | alloca a rest ih =>
    have kept : Represents (alloca fl a st).frames tops := holds
    exact ih kept fits
  | frame body rest ihBody ihRest =>
    simp only [Nested.depth] at fits
    -- the body runs one level up and finds its way back
    obtain ⟨inner, enters, above⟩ := push_represents on holds (by omega)
    obtain ⟨balanced, ready, runs, back⟩ := ihBody above (by rw [length_cons]; omega)
    obtain ⟨returned, leaves, top, below⟩ := pop_represents on back (by omega)
    obtain ⟨balancedRest, after, runsRest, final⟩ := ihRest below (by omega)
    refine ⟨⟨inner, ready, returned, enters, balanced, runs, leaves, top, balancedRest⟩, after, ?_,
      final⟩
    simp only [Nested.actions, run, act, enters, Option.bind_some, run_append, runs, leaves]
    exact runsRest

lemma not_balanced_of_deep (level : tops.length < 1024) (deep : 1024 ≤ tops.length + t.depth) :
    ¬ Balanced fl t st := by
  induction t generalizing st tops with
  | done =>
    simp only [Nested.depth] at deep
    omega
  | alloca a rest ih =>
    have kept : Represents (alloca fl a st).frames tops := holds
    exact ih kept level deep
  | frame body rest ihBody ihRest =>
    rintro ⟨inner, ready, after, enters, balanced, runs, leaves, -, balancedRest⟩
    simp only [Nested.depth] at deep
    by_cases full : tops.length = 1023
    · rw [push, pushStackFrame_full on st.top holds full] at enters
      cases enters
    obtain ⟨inner', enters', above⟩ := push_represents on holds (by omega)
    obtain rfl : inner' = inner := Option.some.inj (enters'.symm.trans enters)
    by_cases deepBody : 1024 ≤ tops.length + 1 + body.depth
    · exact ihBody above (by rw [length_cons]; omega) (by rw [length_cons]; omega) balanced
    -- the body fits, so the rest starts from the same stack and is too deep
    obtain ⟨-, ready', runs', back⟩ := run_nested on body above (by rw [length_cons]; omega)
    obtain rfl : ready' = ready := Option.some.inj (runs'.symm.trans runs)
    obtain ⟨after', leaves', -, below⟩ := pop_represents on back (by omega)
    obtain rfl : after' = after := Option.some.inj (leaves'.symm.trans leaves)
    exact ihRest below level (by omega) balancedRest

end

lemma run_untraced (off : fl.traceBounds = false) (t : Nested) :
    Balanced fl t st ∧ run fl st t.actions = some st := by
  have enters : ∀ st, push fl st = some st := by
    simp [push, pushStackFrame, off]
  have leaves : ∀ st, pop fl st = some st := by
    simp [pop, popStackFrame, off, State.setTop, State.top]
  induction t with
  | done => exact ⟨trivial, rfl⟩
  | alloca a rest ih =>
    have same : alloca fl a st = st := by simp [alloca, traceAlloca, off]
    simp only [Balanced, Nested.actions, run, act, same]
    exact ih
  | frame body rest ihBody ihRest =>
    refine ⟨⟨st, st, st, enters st, ihBody.1, ihBody.2, leaves st, rfl, ihRest.1⟩, ?_⟩
    simp only [Nested.actions, run, act, enters, Option.bind_some, run_append, ihBody.2, leaves]
    exact ihRest.2

end Nesting

/-- From the start of the program, frames are balanced unless they are nested 1024 deep. -/
theorem balanced_iff_depth (fl : Flags) (m : Machine) (t : Nested) :
    Balanced fl t ⟨m, .initial⟩ ↔ fl.traceBounds = false ∨ t.depth < 1024 := by
  have start : Represents (State.mk m .initial).frames [] := represents_initial
  constructor
  · intro balanced
    cases on : fl.traceBounds with
    | false => exact .inl rfl
    | true =>
      refine .inr (Nat.lt_of_not_le fun deep => ?_)
      exact not_balanced_of_deep on t start (by decide) (by simpa using deep) balanced
  · intro fits
    cases on : fl.traceBounds with
    | false => exact (run_untraced on t).1
    | true =>
      have shallow : t.depth < 1024 := by simpa [on] using fits
      exact (run_nested on t start (by simpa using shallow)).1

/-- A recursion of the given depth, without allocations. -/
def recursion : Nat → Nested
  | 0 => .done
  | n + 1 => .frame (recursion n) .done

lemma recursion_depth (n : Nat) : (recursion n).depth = n := by
  induction n with
  | zero => rfl
  | succ n ih =>
    simp only [recursion, Nested.depth]
    omega

def boundsFlags : Flags := ⟨true, true, false, false⟩

/-- The 1024th call in a recursion saves its top behind the array. -/
theorem recursion_leaves_array :
    ¬ Balanced boundsFlags (recursion 1024) ⟨InputLabels.fresh, .initial⟩ := by
  have deep : 1024 ≤ ([] : List Nat).length + (recursion 1024).depth := by
    rw [recursion_depth]
    decide
  exact not_balanced_of_deep rfl _ represents_initial (by decide) deep

end StackFrames
