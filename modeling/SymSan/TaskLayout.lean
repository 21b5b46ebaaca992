import SymSan.JigsawTask

/-!
# How a task is laid out

`finalize` gives every offset one cell, maps the arguments of every constraint to the
cells of their offsets and records for each cell the constraints it occurs in, in order.
-/

namespace TaskLayout

open RgdAst OrderedMaps JigsawTask
open Function (update_of_ne update_self)
open List (mem_cons mem_cons_of_mem mem_cons_self mem_map mem_singleton)

/-! ## Constraints built by `map_arg` -/

/-- A read of `r.2` bytes from offset `r.1` on covers `x`. -/
def Covers (r : Nat × Nat) (x : Nat) : Prop := r.1 ≤ x ∧ x < r.1 + r.2

section Mapping

variable {buf : Nat → BitVec 8} {a : ArgMap} {offset length : Nat}

/-- The first `j` rounds of `map_arg`. -/
def mapUpTo (buf : Nat → BitVec 8) (offset length : Nat) (a : ArgMap) (j : Nat) : ArgMap :=
  (List.range j).foldl (mapByte buf length offset) a

lemma mapUpTo_succ (j : Nat) : mapUpTo buf offset length a (j + 1) =
    mapByte buf length offset (mapUpTo buf offset length a j) j := by
  simp [mapUpTo, List.range_succ]

lemma addInput_shapes (a : ArgMap) (x v : Nat) : (a.addInput x v).shapes = a.shapes := by
  simp only [ArgMap.addInput]
  split <;> rfl

end Mapping

/-! ## Aggregation -/

/-- Every cell belongs to one offset. -/
def Numbered (g : Aggregate) : Prop :=
  ∀ x i, g.symMap x = some i ↔ ∃ v, g.inputs[i]? = some (x, v)

lemma Numbered.injective {g : Aggregate} (numbered : Numbered g) {x y i : Nat}
    (foundX : g.symMap x = some i) (foundY : g.symMap y = some i) : x = y := by
  obtain ⟨v, here⟩ := (numbered x i).mp foundX
  obtain ⟨w, there⟩ := (numbered y i).mp foundY
  rw [here] at there
  cases there
  rfl

lemma numbered_empty : Numbered ⟨fun _ => none, [], fun _ => none, fun _ => []⟩ := by
  intro x i
  constructor
  · rintro ⟨⟩
  · rintro ⟨v, ⟨⟩⟩

/-- What a step of the aggregation leaves in place: the cells and shapes of the offsets
that have one. -/
structure Grows (g g' : Aggregate) : Prop where
  symMap : ∀ x i, g.symMap x = some i → g'.symMap x = some i
  shapes : ∀ x i, g.symMap x = some i → g'.shapes x = g.shapes x

lemma Grows.refl (g : Aggregate) : Grows g g := ⟨fun _ _ h => h, fun _ _ _ => rfl⟩

lemma Grows.trans {g1 g2 g3 : Aggregate} (first : Grows g1 g2) (second : Grows g2 g3) :
    Grows g1 g3 :=
  ⟨fun x i h => second.symMap x i (first.symMap x i h),
    fun x i h => (second.shapes x i (first.symMap x i h)).trans (first.shapes x i h)⟩

/-- The offsets that are new have one of the given offsets and the shape that the
constraint gives them. -/
def NewFrom (c : Constraint) (offsets : List Nat) (g g' : Aggregate) : Prop :=
  ∀ x i, g'.symMap x = some i → g.symMap x = some i ∨ (x ∈ offsets ∧ g'.shapes x = c.args.shapes x)

section Cell

variable {g g' : Aggregate} {c : Constraint} {x i : Nat}

lemma numbered_push (numbered : Numbered g) (new : g.symMap x = none) (v : Nat)
    (shapes : Nat → Option Nat) :
    Numbered { g with
      symMap := Function.update g.symMap x (some g.inputs.length)
      inputs := g.inputs ++ [(x, v)], shapes := shapes } := by
  intro y j
  change Function.update g.symMap x (some g.inputs.length) y = some j ↔
    ∃ w, (g.inputs ++ [(x, v)])[j]? = some (y, w)
  by_cases inside : j < g.inputs.length
  · rw [List.getElem?_append_left inside, ← numbered y j]
    by_cases same : y = x
    · subst same
      simp only [update_self, new, Option.some.injEq]
      constructor
      · omega
      · rintro ⟨⟩
    · rw [update_of_ne same]
  · rw [List.getElem?_append_right (by omega)]
    by_cases same : y = x
    · subst same
      simp only [update_self, Option.some.injEq]
      constructor
      · rintro rfl
        exact ⟨v, by simp⟩
      · rintro ⟨w, here⟩
        obtain ⟨lt, -⟩ := List.getElem?_eq_some_iff.mp here
        rw [List.length_singleton] at lt
        omega
    · rw [update_of_ne same]
      constructor
      · intro found
        obtain ⟨w, here⟩ := (numbered y j).mp found
        exact absurd (List.getElem?_eq_some_iff.mp here).1 inside
      rintro ⟨w, here⟩
      have member := List.mem_of_getElem? here
      rw [mem_singleton] at member
      cases member
      exact absurd rfl same

lemma cell_cases (h : g.cell c x = some (i, g')) :
    (g.symMap x = some i ∧ g' = g) ∨
      (g.symMap x = none ∧ i = g.inputs.length ∧ ∃ value shape,
        c.args.inputs x = some value ∧ c.args.shapes x = some shape ∧
        g' = { g with
          symMap := Function.update g.symMap x (some g.inputs.length)
          inputs := g.inputs ++ [(x, value)]
          shapes := Function.update g.shapes x (some shape) }) := by
  simp only [Aggregate.cell] at h
  split at h
  next known =>
    cases h
    exact .inl ⟨known, rfl⟩
  next new =>
    obtain ⟨value, initial, h⟩ := Option.bind_eq_some_iff.mp h
    obtain ⟨shape, known, h⟩ := Option.map_eq_some_iff.mp h
    cases h
    exact .inr ⟨new, rfl, value, shape, initial, known, rfl⟩

lemma cell_cmap (h : g.cell c x = some (i, g')) : g'.cmap = g.cmap := by
  rcases cell_cases h with ⟨-, rfl⟩ | ⟨-, -, value, shape, -, -, rfl⟩
  · rfl
  · rfl

lemma cell_spec (numbered : Numbered g) (h : g.cell c x = some (i, g')) :
    Numbered g' ∧ Grows g g' ∧ NewFrom c [x] g g' ∧ g'.symMap x = some i := by
  rcases cell_cases h with ⟨known, rfl⟩ | ⟨new, rfl, value, shape, -, known, rfl⟩
  · exact ⟨numbered, .refl _, fun y j found => .inl found, known⟩
  have other : ∀ y j, g.symMap y = some j → y ≠ x := by
    rintro y j found rfl
    rw [new] at found
    cases found
  refine ⟨numbered_push numbered new value _, ⟨fun y j found => ?_, fun y j found => ?_⟩,
    fun y j found => ?_, update_self ..⟩
  · exact (update_of_ne (other y j found) ..).trans found
  · exact update_of_ne (other y j found) ..
  · by_cases same : y = x
    · subst same
      exact .inr ⟨List.mem_singleton_self y, (update_self ..).trans known.symm⟩
    · exact .inl ((update_of_ne same ..).symm.trans found)

lemma NewFrom.cons {g1 : Aggregate} {offsets : List Nat} (first : NewFrom c [x] g g1)
    (grows : Grows g1 g') (rest : NewFrom c offsets g1 g') : NewFrom c (x :: offsets) g g' := by
  intro y j found
  rcases rest y j found with old | ⟨member, shape⟩
  · rcases first y j old with old | ⟨member, shape⟩
    · exact .inl old
    · rw [mem_singleton.mp member] at old shape ⊢
      exact .inr ⟨mem_cons_self, (grows.shapes _ j old).trans shape⟩
  · exact .inr ⟨mem_cons_of_mem _ member, shape⟩

end Cell

/-- The lists of constraints while the `i`-th one is aggregated: they are in order, and
the cells that list it belong to offsets that are done. -/
structure Listed (i : Nat) (remaining : List Nat) (symMap : Nat → Option Nat)
    (cmap : Nat → List Nat) : Prop where
  ordered : ∀ j, (cmap j).Pairwise (· < ·)
  below : ∀ j m, m ∈ cmap j → m ≤ i
  done : ∀ j, i ∈ cmap j → ∃ x, x ∉ remaining ∧ symMap x = some j

section Pass

variable {i : Nat} {c : Constraint} {comparison : AstKind} {symMap symMap' : Nat → Option Nat}
  {cmap : Nat → List Nat} {x cell : Nat} {remaining : List Nat} {entries : List (Nat × Nat)}
  {s s' : Pass} {e : Nat × Nat}

section

variable (listed : Listed i (x :: remaining) symMap cmap)
  (kept : ∀ y j, symMap y = some j → symMap' y = some j)

include listed kept

lemma Listed.skip : Listed i remaining symMap' cmap := by
  refine ⟨listed.ordered, listed.below, fun j member => ?_⟩
  obtain ⟨y, other, found⟩ := listed.done j member
  exact ⟨y, fun inside => other (mem_cons_of_mem _ inside), kept y j found⟩

lemma Listed.step (here : symMap' x = some cell) (alone : ∀ y, symMap' y = some cell → y = x)
    (once : x ∉ remaining) :
    Listed i remaining symMap' (Function.update cmap cell (cmap cell ++ [i])) := by
  have before : ∀ m ∈ cmap cell, m < i := by
    intro m member
    refine Nat.lt_of_le_of_ne (listed.below cell m member) ?_
    rintro rfl
    obtain ⟨y, other, found⟩ := listed.done cell member
    exact other (alone y (kept y cell found) ▸ mem_cons_self)
  have skipped := listed.skip kept
  refine ⟨fun j => ?_, fun j m member => ?_, fun j member => ?_⟩
  · by_cases eq : j = cell
    · subst eq
      rw [update_self, List.pairwise_append]
      refine ⟨listed.ordered j, List.pairwise_singleton .., fun m member n last => ?_⟩
      rw [mem_singleton.mp last]
      exact before m member
    · rw [update_of_ne eq]
      exact listed.ordered j
  · by_cases eq : j = cell
    · subst eq
      rw [update_self, List.mem_append, mem_singleton] at member
      rcases member with member | rfl
      · exact listed.below j m member
      · exact Nat.le_refl m
    · rw [update_of_ne eq] at member
      exact listed.below j m member
  · by_cases eq : j = cell
    · subst eq
      exact ⟨x, once, here⟩
    · rw [update_of_ne eq] at member
      exact skipped.done j member

end

/-- What the loop over the entries does: the argument of each entry gets the cell of its
offset. -/
structure Passed (i : Nat) (c : Constraint) (entries : List (Nat × Nat)) (s s' : Pass) : Prop where
  numbered : Numbered s'.aggregate
  listed : Listed i [] s'.aggregate.symMap s'.aggregate.cmap
  grows : Grows s.aggregate s'.aggregate
  new : NewFrom c (entries.map (·.1)) s.aggregate s'.aggregate
  mapped : ∀ e, e ∈ entries → ∀ arg, s.inputArgs[e.2]? = some arg →
    ∃ cell, s'.aggregate.symMap e.1 = some cell ∧ s'.inputArgs[e.2]? = some (arg.1, cell)
  others : ∀ j, (∀ e, e ∈ entries → e.2 ≠ j) → s'.inputArgs[j]? = s.inputArgs[j]?

section

variable (numbered : Numbered s.aggregate)

include numbered

lemma mapInput_cell (h : mapInput i c comparison s e = some s') :
        Numbered s'.aggregate ∧ Grows s.aggregate s'.aggregate ∧
      NewFrom c [e.1] s.aggregate s'.aggregate ∧
      ∃ cell, s'.aggregate.symMap e.1 = some cell ∧
        s'.inputArgs = (s.inputArgs.modify e.2 fun arg => (arg.1, cell)) ∧
        s'.aggregate.cmap = (if isMemcmpKind comparison then s.aggregate.cmap
          else Function.update s.aggregate.cmap cell (s.aggregate.cmap cell ++ [i])) := by
  obtain ⟨⟨cell, g⟩, made, rfl⟩ := Option.map_eq_some_iff.mp h
  obtain ⟨numbered', grows, new, here⟩ := cell_spec numbered made
  have same := cell_cmap made
  refine ⟨numbered', ⟨grows.symMap, grows.shapes⟩, new, cell, here, rfl, ?_⟩
  simp only [same]

lemma mapInput_listed (listed : Listed i (e.1 :: remaining) s.aggregate.symMap s.aggregate.cmap)
    (once : e.1 ∉ remaining) (h : mapInput i c comparison s e = some s') :
    Listed i remaining s'.aggregate.symMap s'.aggregate.cmap := by
  obtain ⟨numbered', grows, -, _, here, -, cmap⟩ := mapInput_cell numbered h
  rw [cmap]
  by_cases memory : isMemcmpKind comparison = true
  · rw [if_pos memory]
    exact listed.skip grows.symMap
  · rw [if_neg memory]
    exact listed.step grows.symMap here (fun y found => numbered'.injective found here) once

lemma mapInputs_cells (h : mapInputs i c comparison entries s = some s') :
    Numbered s'.aggregate ∧ Grows s.aggregate s'.aggregate ∧
      NewFrom c (entries.map (·.1)) s.aggregate s'.aggregate ∧
      ∀ e ∈ entries, ∃ cell, s'.aggregate.symMap e.1 = some cell := by
  induction entries generalizing s with
  | nil =>
    cases h
    refine ⟨numbered, .refl _, fun x j found => .inl found, ?_⟩
    intro e member
    cases member
  | cons e rest ih =>
    obtain ⟨_, first, h⟩ := Option.bind_eq_some_iff.mp h
    obtain ⟨numbered1, grows1, new1, cell, here, -⟩ := mapInput_cell numbered first
    obtain ⟨numbered2, grows2, new2, cells⟩ := ih numbered1 h
    refine ⟨numbered2, grows1.trans grows2, new1.cons grows2 new2, fun b member => ?_⟩
    rcases mem_cons.mp member with rfl | member
    · exact ⟨cell, grows2.symMap _ _ here⟩
    · exact cells b member

end

lemma mapInputs_passed (distinct : entries.Pairwise fun a b => a.1 ≠ b.1 ∧ a.2 ≠ b.2)
    (numbered : Numbered s.aggregate)
    (listed : Listed i (entries.map (·.1)) s.aggregate.symMap s.aggregate.cmap)
    (h : mapInputs i c comparison entries s = some s') : Passed i c entries s s' := by
  induction entries generalizing s with
  | nil =>
    cases h
    refine ⟨numbered, listed, .refl _, fun x j found => .inl found, ?_, fun j _ => rfl⟩
    intro e member
    cases member
  | cons e rest ih =>
    obtain ⟨apart, distinct⟩ := List.pairwise_cons.mp distinct
    obtain ⟨_, first, h⟩ := Option.bind_eq_some_iff.mp h
    have once : e.1 ∉ rest.map (·.1) := by
      intro inside
      obtain ⟨b, member, same⟩ := mem_map.mp inside
      exact (apart b member).1 same.symm
    obtain ⟨numbered1, grows1, new1, cell, here, args, -⟩ := mapInput_cell numbered first
    have listed1 := mapInput_listed numbered listed once first
    have rest := ih distinct numbered1 listed1 h
    refine ⟨rest.numbered, rest.listed, grows1.trans rest.grows, ?_, ?_, ?_⟩
    · exact new1.cons rest.grows rest.new
    · intro b member arg original
      rcases mem_cons.mp member with rfl | member
      · refine ⟨cell, rest.grows.symMap _ _ here, ?_⟩
        rw [rest.others b.2 fun q inside => (apart q inside).2.symm, args,
          List.getElem?_modify_eq, original]
        rfl
      · apply rest.mapped b member
        rw [args, List.getElem?_modify_ne _ _ (apart b member).2, original]
    · intro j other
      rw [rest.others j fun q inside => other q (mem_cons_of_mem _ inside), args,
        List.getElem?_modify_ne _ _ (other e mem_cons_self)]

end Pass

/-! ## Tasks -/

/-- The arguments of a constraint are the cells of their offsets. -/
structure Wired (symMap : Nat → Option Nat) (k : Constraint × ConsMeta) : Prop where
  symbolic : ∀ x j, k.1.args.localMap.find x = some j →
    ∃ cell, symMap x = some cell ∧ k.2.inputArgs[j]? = some (true, cell)
  constant : ∀ (j : Nat) v, k.1.args.inputArgs[j]? = some (false, v) →
    k.2.inputArgs[j]? = some (false, v)

/-- Every input byte has a symbolic argument of its own. -/
structure Indexed (a : ArgMap) : Prop where
  symbolic : ∀ x i, a.localMap.find x = some i → a.inputArgs[i]? = some (true, 0)
  injective : ∀ x y i, a.localMap.find x = some i → a.localMap.find y = some i → x = y

lemma entries_distinct {a : ArgMap} (indexed : Indexed a) :
    a.localMap.entries.Pairwise fun p q => p.1 ≠ q.1 ∧ p.2 ≠ q.2 := by
  refine a.localMap.entries_sorted.imp_of_mem ?_
  rintro ⟨x, i⟩ ⟨y, j⟩ inX inY lt
  have ne : x ≠ y := Nat.ne_of_lt lt
  refine ⟨ne, ?_⟩
  rintro rfl
  exact ne (indexed.injective x y i (OrderedMap.mem_entries.mp inX) (OrderedMap.mem_entries.mp inY))

section Finalize

variable {i : Nat} {c : Constraint} {comparison : AstKind}
  {g g' : Aggregate} {cm : ConsMeta} {constraints : List (Constraint × AstKind)}
  {metas : List (Constraint × ConsMeta)}

/-- The aggregation of a constraint: its arguments get the cells of their offsets. -/
lemma finalizeConstraint_wired (indexed : Indexed c.args) (numbered : Numbered g)
    (ordered : ∀ j, (g.cmap j).Pairwise (· < ·)) (below : ∀ j m, m ∈ g.cmap j → m < i)
    (h : finalizeConstraint i c comparison g = some (cm, g')) :
    Numbered g' ∧ (∀ j, (g'.cmap j).Pairwise (· < ·)) ∧ (∀ j m, m ∈ g'.cmap j → m < i + 1) ∧
      Grows g g' ∧ NewFrom c (c.args.localMap.entries.map (·.1)) g g' ∧
      cm.comparison = comparison ∧ Wired g'.symMap (c, cm) := by
  obtain ⟨s, made, done⟩ := Option.map_eq_some_iff.mp h
  cases done
  have listed : Listed i (c.args.localMap.entries.map (·.1)) g.symMap g.cmap :=
    ⟨ordered, fun j m member => Nat.le_of_lt (below j m member),
      fun j member => absurd (below j i member) (Nat.lt_irrefl i)⟩
  have passed := mapInputs_passed (entries_distinct indexed) numbered listed made
  refine ⟨passed.numbered, passed.listed.ordered,
    fun j m member => Nat.lt_succ_of_le (passed.listed.below j m member), passed.grows, passed.new,
    rfl, fun x j found => ?_, fun j v constant => ?_⟩
  · exact passed.mapped (x, j) (OrderedMap.mem_entries.mpr found) _ (indexed.symbolic x j found)
  rw [passed.others j]
  · exact constant
  · rintro ⟨x, m⟩ member rfl
    have symbolic := indexed.symbolic x m (OrderedMap.mem_entries.mp member)
    rw [symbolic] at constant
    cases constant

lemma Wired.grow {symMap symMap' : Nat → Option Nat} {k : Constraint × ConsMeta}
    (wired : Wired symMap k) (kept : ∀ x j, symMap x = some j → symMap' x = some j) :
    Wired symMap' k := by
  refine ⟨fun x j found => ?_, wired.constant⟩
  obtain ⟨cell, here, arg⟩ := wired.symbolic x j found
  exact ⟨cell, kept x cell here, arg⟩

/-- The loop over the constraints: what holds before each of them, and what holds of each
one that is done and is kept by those behind it. -/
lemma finalizeFrom_rule {I : Nat → Aggregate → Prop}
    {G : Nat → Constraint × ConsMeta → Aggregate → Prop}
    (step : ∀ i p g cm g', p ∈ constraints → I i g →
      finalizeConstraint i p.1 p.2 g = some (cm, g') → I (i + 1) g' ∧ G i (p.1, cm) g')
    (keep : ∀ i p g cm g', p ∈ constraints → I i g →
      finalizeConstraint i p.1 p.2 g = some (cm, g') → ∀ j k, G j k g → G j k g')
    (before : I i g) (h : finalizeFrom i constraints g = some (metas, g')) :
    I (i + constraints.length) g' ∧ (∀ j k, G j k g → G j k g') ∧
      ∀ (m : Nat) k, metas[m]? = some k → G (i + m) k g' := by
  induction constraints generalizing i g metas with
  | nil =>
    cases h
    refine ⟨before, fun j k good => good, ?_⟩
    rintro m k ⟨⟩
  | cons p rest ih =>
    obtain ⟨⟨cm, g1⟩, first, h⟩ := Option.bind_eq_some_iff.mp h
    obtain ⟨⟨_, _⟩, others, done⟩ := Option.map_eq_some_iff.mp h
    cases done
    obtain ⟨after, here⟩ := step i p g cm g1 mem_cons_self before first
    have kept := keep i p g cm g1 mem_cons_self before first
    obtain ⟨last, later, all⟩ := ih
      (fun i p g cm g' inside => step i p g cm g' (mem_cons_of_mem _ inside))
      (fun i p g cm g' inside => keep i p g cm g' (mem_cons_of_mem _ inside)) after others
    refine ⟨?_, fun j k good => later j k (kept j k good), fun m k found => ?_⟩
    · rw [List.length_cons, ← Nat.succ_add_eq_add_succ]
      exact last
    cases m with
    | zero =>
      cases found
      exact later i _ here
    | succ m =>
      rw [← Nat.succ_add_eq_add_succ]
      exact all m k found

end Finalize

def IsCell (t : SearchTask) (x cell : Nat) : Prop := ∃ v, t.inputs[cell]? = some (x, v)

end TaskLayout
