import SymSan.StackFrames

/-!
# The two regions of the label array

Expressions take labels from the bottom of the array, stack bounds from its top. Creating
an expression checks that its label is below the stack; an allocation on the stack takes
the next label below the top without looking at the expressions.

A run is followed together with the bounds that are live in it: for each frame that has
not returned the labels of its allocations, with the records written for them. The regions
stay apart in every run in which an allocation finds a free label and frames are saved
and taken back inside the array.
-/

namespace LabelRegions

open LabelTable TableGrowth RuntimeOps StackFrames

/-- A live bounds label with its record. -/
abbrev Bounds : Type := Nat × LabelInfo

/-- A state with the bounds of the frames, the innermost first. -/
structure Tracked where
  state : State
  live : List (List Bounds)

def Tracked.table (r : Tracked) : Runtime := r.state.machine.table

def addBounds (b : Bounds) : List (List Bounds) → List (List Bounds)
  | [] => [[b]]
  | frame :: rest => (b :: frame) :: rest

def liveAfter (r : Tracked) : Action → List (List Bounds)
  | .push => [] :: r.live
  | .pop => r.live.tail
  | .alloca a => addBounds (nextBounds r.table, a.record) r.live
  | .call _ => r.live

def follow (fl : Flags) (r : Tracked) (a : Action) : Option Tracked :=
  (act fl r.state a).map fun st => ⟨st, liveAfter r a⟩

def followAll (fl : Flags) : Tracked → List Action → Option Tracked
  | r, [] => some r
  | r, a :: rest => (follow fl r a).bind fun r => followAll fl r rest

/-- The allocation finds a free label between the regions; the frame has an entry in the
array of saved tops. -/
def Spare (st : State) : Action → Prop
  | .push => st.frames.current + 1 < maxSavedStackEntries
  | .pop => 0 < st.frames.current
  | .alloca _ => st.machine.table.last + 1 < st.top
  | .call _ => True

instance (st : State) (a : Action) : Decidable (Spare st a) :=
  match a with
  | .push => inferInstanceAs (Decidable (_ < _))
  | .pop => inferInstanceAs (Decidable (_ < _))
  | .alloca _ => inferInstanceAs (Decidable (_ < _))
  | .call _ => inferInstanceAs (Decidable True)

/-- Every action of a run finds spare room in the state where it is made. -/
def Spaced (fl : Flags) : Tracked → List Action → Prop
  | _, [] => True
  | r, a :: rest => Spare r.state a ∧ ∀ r', follow fl r a = some r' → Spaced fl r' rest

/-- What `dfsan_init` sets up: no labels, and all of the table but its last two entries. -/
def programStart : Tracked where
  state :=
    ⟨⟨⟨fun l => if l = 0 then constInfo else zeroInfo, 0, 0xc00000000 / 32 - 2, fun _ => [], []⟩,
      fun _ => 0⟩, .initial⟩
  live := [[]]

/-! ## The frames lie one below the other -/

/-- The bounds of a frame are at or above its top and as they were written. -/
def Holds (info : Nat → LabelInfo) (top : Nat) (frame : List Bounds) : Prop :=
  ∀ b, b ∈ frame → top ≤ b.1 ∧ info b.1 = b.2

/-- Each frame is below the top that its caller had. -/
def Layered (info : Nat → LabelInfo) : Nat → List Nat → List (List Bounds) → Prop
  | top, [], [frame] => top ≤ kInitializingLabel ∧ Holds info top frame
  | top, saved :: tops, frame :: rest =>
    top ≤ saved ∧ Holds info top frame ∧ Layered info saved tops rest
  | _, _, _ => False

section Layers

variable {info info' : Nat → LabelInfo} {top : Nat} {tops : List Nat} {live : List (List Bounds)}
  {b : Bounds}

lemma Holds.congr {frame : List Bounds} (holds : Holds info top frame)
    (same : ∀ l, top ≤ l → info' l = info l) : Holds info' top frame := by
  intro b member
  obtain ⟨above, record⟩ := holds b member
  exact ⟨above, (same b.1 above).trans record⟩

variable (layered : Layered info top tops live)

include layered

/-- The induction over the frames: there is one more frame than saved tops. -/
lemma layered_cases :
    (∃ frame, tops = [] ∧ live = [frame] ∧ top ≤ kInitializingLabel ∧ Holds info top frame) ∨
    ∃ saved tops' frame rest, tops = saved :: tops' ∧ live = frame :: rest ∧ top ≤ saved ∧
      Holds info top frame ∧ Layered info saved tops' rest := by
  cases tops with
  | nil =>
    cases live with
    | nil => exact absurd layered id
    | cons frame rest =>
      cases rest with
      | nil => exact .inl ⟨frame, rfl, rfl, layered.1, layered.2⟩
      | cons other rest => exact absurd layered id
  | cons saved tops =>
    cases live with
    | nil => exact absurd layered id
    | cons frame rest =>
      exact .inr ⟨saved, tops, frame, rest, rfl, rfl, layered.1, layered.2.1, layered.2.2⟩

lemma Layered.congr (same : ∀ l, top ≤ l → info' l = info l) : Layered info' top tops live := by
  fun_induction Layered info top tops live with
  | case1 top frame => exact ⟨layered.1, layered.2.congr same⟩
  | case2 top saved tops frame rest ih =>
    obtain ⟨le, holds, below⟩ := layered
    exact ⟨le, holds.congr same, ih below fun l above => same l (Nat.le_trans le above)⟩
  | case3 => exact layered.elim

lemma Layered.top_le : top ≤ kInitializingLabel := by
  fun_induction Layered info top tops live with
  | case1 top frame => exact layered.1
  | case2 top saved tops frame rest ih => exact Nat.le_trans layered.1 (ih layered.2.2)
  | case3 => exact layered.elim

lemma Layered.mem (member : b ∈ live.flatten) : top ≤ b.1 ∧ info b.1 = b.2 := by
  fun_induction Layered info top tops live with
  | case1 top frame => exact layered.2 b (by simpa using member)
  | case2 top saved tops frame rest ih =>
    obtain ⟨le, holds, below⟩ := layered
    rw [List.flatten_cons, List.mem_append] at member
    rcases member with here | older
    · exact holds b here
    · obtain ⟨above, record⟩ := ih below older
      exact ⟨Nat.le_trans le above, record⟩
  | case3 => exact layered.elim

lemma Layered.add (below : b.1 < top) :
    Layered (fun l => if l = b.1 then b.2 else info l) b.1 tops (addBounds b live) := by
  have others : ∀ l, top ≤ l → (if l = b.1 then b.2 else info l) = info l := by
    intro l above
    exact if_neg (by omega)
  have added : ∀ frame, Holds info top frame →
      Holds (fun l => if l = b.1 then b.2 else info l) b.1 (b :: frame) := by
    intro frame holds c member
    rcases List.mem_cons.mp member with rfl | older
    · exact ⟨Nat.le_refl _, if_pos rfl⟩
    · obtain ⟨above, record⟩ := (holds.congr others) c older
      exact ⟨by omega, record⟩
  have bound := layered.top_le
  rcases layered_cases layered with
    ⟨frame, rfl, rfl, -, holds⟩ | ⟨saved, tops', frame, rest, rfl, rfl, le, holds, outer⟩
  · exact ⟨by omega, added frame holds⟩
  · exact ⟨by omega, added frame holds, outer.congr fun l above => others l (by omega)⟩

end Layers

/-! ## Runs -/

/-- The regions do not meet and the array of saved tops describes the frames. -/
structure Apart (r : Tracked) : Prop where
  room : r.table.last < r.table.stackTop
  layers : ∃ tops, Represents r.state.frames tops ∧
    Layered r.table.info r.table.stackTop tops r.live

lemma programStart_apart : Apart programStart := by
  constructor
  · decide
  · refine ⟨[], represents_initial, ?_, ?_⟩
    · decide
    · intro b member
      exact absurd member List.not_mem_nil

/-- Labels that were handed out keep their records. -/
structure Follows (r r' : Tracked) : Prop where
  last : r.table.last ≤ r'.table.last
  same : ∀ l, l ≤ r.table.last → r'.table.info l = r.table.info l

lemma Follows.refl (r : Tracked) : Follows r r := ⟨Nat.le_refl _, fun _ _ => rfl⟩

lemma Follows.trans {r r' r'' : Tracked} (first : Follows r r') (second : Follows r' r'') :
    Follows r r'' := by
  refine ⟨Nat.le_trans first.last second.last, fun l le => ?_⟩
  rw [second.same l (Nat.le_trans le first.last), first.same l le]

section Steps

variable {fl : Flags} {r r' : Tracked}

lemma grows_room {P : Runtime → LabelInfo → Prop} {s s' : Runtime} (grows : Grows P s s')
    (room : s.last < s.stackTop) : s'.last < s'.stackTop :=
  grows.invariant (I := fun s => s.last < s.stackTop) room (fun _ _ _ room _ => room)
    (fun _ _ room => room) fun _ _ _ room => room

lemma call_apart (apart : Apart r) {c : Step} (step : follow fl r (.call c) = some r') :
    Apart r' ∧ Follows r r' := by
  simp only [follow, act, Option.map_map] at step
  obtain ⟨m, called, rfl⟩ := Option.map_eq_some_iff.mp step
  have grown := TraceHooks.exec_grown called
  have ext := Grows.toExtends grown
  obtain ⟨tops, represents, layered⟩ := apart.layers
  have moved : Layered m.table.info m.table.stackTop tops r.live := by
    rw [ext.stackTop]
    exact layered.congr fun l above => ext.same l (.inr above)
  constructor
  · exact ⟨grows_room grown apart.room, tops, represents, moved⟩
  · exact ⟨ext.last, fun l le => ext.same l (.inl le)⟩

section

variable (on : fl.traceBounds = true) (apart : Apart r)

include on apart

lemma push_apart (spare : Spare r.state .push) (step : follow fl r .push = some r') :
    Apart r' ∧ Follows r r' := by
  obtain ⟨tops, represents, layered⟩ := apart.layers
  have level := represents.current
  have fits : tops.length + 1 < 1024 := by
    have : r.state.frames.current + 1 < 1024 := spare
    omega
  obtain ⟨_, pushes, above⟩ := pushStackFrame_represents on r.state.top represents fits
  simp only [follow, act, push, pushes, Option.map_some, Option.some.injEq] at step
  subst step
  refine ⟨⟨apart.room, _, above, ?_⟩, ⟨Nat.le_refl _, fun _ _ => rfl⟩⟩
  exact ⟨Nat.le_refl _, fun b member => absurd member List.not_mem_nil, layered⟩

lemma pop_apart (spare : Spare r.state .pop) (step : follow fl r .pop = some r') :
    Apart r' ∧ Follows r r' := by
  obtain ⟨_, represents, layered⟩ := apart.layers
  have level := represents.current
  have nonempty : 0 < r.state.frames.current := spare
  rcases layered_cases layered with
    ⟨_, rfl, -, -, -⟩ | ⟨saved, tops', frame, rest, rfl, split, le, -, outer⟩
  · simp only [List.length_nil] at level
    omega
  -- the array was read inside its bounds, or there would be no state
  have inside : tops'.length + 1 < 1024 := by
    simp only [follow, act, pop, popStackFrame, on, if_true] at step
    split at step
    next bounds =>
      have := ((inBounds_iff _).mp bounds).2
      rw [List.length_cons] at level
      omega
    · cases step
  obtain ⟨_, pops, below⟩ := popStackFrame_represents on r.state.top represents inside
  simp only [follow, act, pop, pops, Option.map_some, Option.some.injEq] at step
  subst step
  have room := apart.room
  refine ⟨⟨Nat.lt_of_lt_of_le room le, tops', below, ?_⟩, ⟨Nat.le_refl _, fun _ _ => rfl⟩⟩
  simp only [liveAfter, split]
  exact outer

lemma alloca_apart {a : AllocaCall} (spare : Spare r.state (.alloca a))
    (step : follow fl r (.alloca a) = some r') :
    Apart r' ∧ Follows r r' := by
  obtain ⟨tops, represents, layered⟩ := apart.layers
  have free : r.table.last + 1 < r.table.stackTop := spare
  have bound : r.table.stackTop ≤ 4294967295 := layered.top_le
  have next : nextBounds r.table = r.table.stackTop - 1 := by
    rw [nextBounds]
    omega
  simp only [follow, act, alloca, traceAlloca, on, Option.map_some, Option.some.injEq] at step
  subst step
  constructor
  · constructor
    · change r.table.last < nextBounds r.table
      omega
    · have below : nextBounds r.table < r.table.stackTop := by omega
      exact ⟨tops, represents, layered.add (b := (nextBounds r.table, a.record)) below⟩
  · refine ⟨Nat.le_refl _, fun l le => if_neg ?_⟩
    change l ≠ nextBounds r.table
    omega

lemma follow_apart {a : Action} (spare : Spare r.state a) (step : follow fl r a = some r') :
    Apart r' ∧ Follows r r' := by
  cases a with
  | push => exact push_apart on apart spare step
  | pop => exact pop_apart on apart spare step
  | alloca a => exact alloca_apart on apart spare step
  | call c => exact call_apart apart step

lemma followAll_apart {actions : List Action} (spaced : Spaced fl r actions)
    (run : followAll fl r actions = some r') :
    Apart r' ∧ Follows r r' := by
  induction actions generalizing r with
  | nil =>
    obtain rfl : r = r' := by simpa [followAll] using run
    exact ⟨apart, .refl r⟩
  | cons a rest ih =>
    obtain ⟨r1, step, run⟩ := Option.bind_eq_some_iff.mp run
    obtain ⟨apart1, first⟩ := follow_apart on apart spaced.1 step
    obtain ⟨apart', later⟩ := ih apart1 (spaced.2 r1 step) run
    exact ⟨apart', first.trans later⟩

end

lemma Spaced.append {xs ys : List Action} (spaced : Spaced fl r (xs ++ ys)) :
    Spaced fl r xs ∧ ∀ r', followAll fl r xs = some r' → Spaced fl r' ys := by
  induction xs generalizing r with
  | nil =>
    refine ⟨trivial, fun r' run => ?_⟩
    obtain rfl : r = r' := by simpa [followAll] using run
    exact spaced
  | cons a rest ih =>
    constructor
    · exact ⟨spaced.1, fun r1 step => (ih (spaced.2 r1 step)).1⟩
    · intro r' run
      obtain ⟨r1, step, run⟩ := Option.bind_eq_some_iff.mp run
      exact (ih (spaced.2 r1 step)).2 r' run

end Steps

/-- In a run whose actions all find spare room the labels of expressions are below the live
bounds, bounds keep the records they were given, and so do expressions. -/
theorem regions_apart (fl : Flags) (on : fl.traceBounds = true) (first second : List Action)
    (r r' : Tracked) (before : followAll fl programStart first = some r)
    (after : followAll fl r second = some r') (spaced : Spaced fl programStart (first ++ second)) :
    (∀ l, l ≤ r'.table.last → ∀ b, b ∈ r'.live.flatten → l < b.1) ∧
      (∀ b, b ∈ r'.live.flatten → r'.table.info b.1 = b.2) ∧
      ∀ l, l ≤ r.table.last → r'.table.info l = r.table.info l := by
  obtain ⟨spacedFirst, spacedSecond⟩ := spaced.append
  obtain ⟨apart, -⟩ := followAll_apart on programStart_apart spacedFirst before
  obtain ⟨apart', follows⟩ := followAll_apart on apart (spacedSecond r before) after
  obtain ⟨_, -, layered⟩ := apart'.layers
  have room := apart'.room
  refine ⟨fun l le b member => ?_, fun b member => (layered.mem member).2, follows.same⟩
  have above := (layered.mem member).1
  omega

def readByte : Action := .call ⟨fun _ => 0, .input 4096 0⟩

def localArray : Action := .alloca ⟨0, 16, 1, 8192⟩

theorem regions_apart_one_call : ∃ r r',
    followAll boundsFlags programStart [readByte, .push] = some r ∧
    followAll boundsFlags r [localArray, readByte] = some r' ∧
    (∀ l, l ≤ r'.table.last → ∀ b, b ∈ r'.live.flatten → l < b.1) ∧
    (∀ b, b ∈ r'.live.flatten → r'.table.info b.1 = b.2) ∧
    ∀ l, l ≤ r.table.last → r'.table.info l = r.table.info l := by
  refine ⟨_, _, rfl, rfl, ?_⟩
  refine regions_apart boundsFlags rfl [readByte, .push] [localArray, readByte] _ _ rfl rfl ?_
  refine ⟨trivial, fun r1 step => ?_⟩
  cases step
  refine ⟨by decide, fun r2 step => ?_⟩
  cases step
  refine ⟨by decide, fun r3 step => ?_⟩
  exact ⟨trivial, fun r4 step => trivial⟩

/-! ## A full table -/

lemma readByte_follow (fl : Flags) {r : Tracked} (room : r.table.last + 1 < r.table.stackTop)
    (bound : r.table.stackTop ≤ kInitializingLabel) : ∃ r', follow fl r readByte = some r' ∧
      r'.table.last = r.table.last + 1 ∧ r'.table.stackTop = r.table.stackTop ∧
      r'.live = r.live := by
  have fits : r.table.checkLabel (r.table.last + 1) = true := by
    simp only [Runtime.checkLabel, Bool.and_eq_true, decide_eq_true_eq]
    omega
  have made : createLabel r.state.machine.table 0 =
      some (r.table.last + 1, r.table.push (InputLabels.inputRecord 0)) := if_pos fits
  have stepped : follow fl r readByte = some ⟨⟨⟨r.table.push (InputLabels.inputRecord 0),
      setCell r.state.machine.shadow 4096 (r.table.last + 1)⟩, r.state.frames⟩, r.live⟩ := by
    simp only [follow, readByte, act, exec, made]
    rfl
  exact ⟨_, stepped, rfl, rfl, rfl⟩

lemma readBytes_follow (fl : Flags) (n : Nat) {r : Tracked}
    (room : r.table.last + n < r.table.stackTop) (bound : r.table.stackTop ≤ kInitializingLabel) :
    ∃ r', followAll fl r (List.replicate n readByte) = some r' ∧
      r'.table.last = r.table.last + n ∧ r'.table.stackTop = r.table.stackTop ∧
      r'.live = r.live := by
  induction n generalizing r with
  | zero => exact ⟨r, rfl, rfl, rfl, rfl⟩
  | succ n ih =>
    obtain ⟨r1, step, _, _, live⟩ := readByte_follow fl (by omega) bound
    obtain ⟨r', run, _, _, live'⟩ := ih (r := r1) (by omega) (by omega)
    refine ⟨r', ?_, by omega, by omega, live'.trans live⟩
    simp only [List.replicate_succ, followAll, step]
    exact run

lemma followAll_append {fl : Flags} {r r' : Tracked} {xs : List Action}
    (run : followAll fl r xs = some r') (ys : List Action) :
    followAll fl r (xs ++ ys) = followAll fl r' ys := by
  induction xs generalizing r with
  | nil =>
    obtain rfl : r = r' := by simpa [followAll] using run
    rfl
  | cons a rest ih =>
    obtain ⟨_, step, run⟩ := Option.bind_eq_some_iff.mp run
    simp only [List.cons_append, followAll, step]
    exact ih run

/-- When all labels below the stack are in use, the bounds of an array are written over the
record of the last input byte. -/
theorem array_overwrites_byte : ∃ actions r, followAll boundsFlags programStart actions = some r ∧
    ∃ b, b ∈ r.live.flatten ∧ b.1 = r.table.last ∧ (r.table.info r.table.last).op = .alloca := by
  obtain ⟨r, run, last, top, live⟩ :=
    readBytes_follow boundsFlags 1610612733 (r := programStart) (by decide) (by decide)
  have lastIs : r.table.last = 1610612733 := last
  have topIs : r.table.stackTop = 1610612734 := top
  have next : nextBounds r.table = r.table.last := by
    rw [nextBounds, topIs, lastIs]
    decide
  refine ⟨List.replicate 1610612733 readByte ++ [localArray],
    ⟨alloca boundsFlags ⟨0, 16, 1, 8192⟩ r.state, liveAfter r localArray⟩, ?_, ?_⟩
  · rw [followAll_append run]
    rfl
  refine ⟨(nextBounds r.table, AllocaCall.record ⟨0, 16, 1, 8192⟩), ?_, next, ?_⟩
  · simp only [liveAfter, live]
    exact List.mem_cons_self
  · change (if r.table.last = nextBounds r.table then AllocaCall.record ⟨0, 16, 1, 8192⟩
      else r.table.info r.table.last).op = .alloca
    rw [if_pos next.symm]
    rfl

end LabelRegions
