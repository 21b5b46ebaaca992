import SymSan.ShapeTables
import SymSan.SolutionBytes
import SymSan.TableGrowth

/-!
# Which bytes a result has

`add_results` walks over the ordered offsets of a task. At an offset with a length it stores
the bytes of that length and goes on behind them; an offset with shape 0 is skipped, in the
belief that the read it belongs to begins before it. Where reads overlap, the walk may step
over the first byte of a read, and the bytes at the end of that read are not stored. All
bytes are stored just for those tasks whose offsets are runs of the recorded lengths, one
after the other.
-/

namespace ResultDecoding

open LabelTable RgdAst OrderedMaps LittleEndian JigsawTask GradientDescent TaskLayout UtaRel
  SolutionBytes ShapeTables
open List (drop_sublist length_range' map_cons mem_cons mem_cons_of_mem mem_cons_self mem_map
  pairwise_cons)

/-! ## Runs of keys -/

/-- The keys have the bytes of the lengths that are recorded for them. -/
def Whole (shapes : Nat → Option Nat) (keys : List Nat) : Prop :=
  ∀ x n, x ∈ keys → shapes x = some n → ∀ k, k < n → x + k ∈ keys

section Keys

variable {shapes : Nat → Option Nat} {start n : Nat} {rest : List Nat} {keys : List Nat}

section

variable (sorted : (start :: rest).Pairwise (· < ·)) (whole : Whole shapes (start :: rest))

include sorted whole

lemma Whole.tail : Whole shapes rest := by
  intro x n member shape k lt
  have above := (pairwise_cons.mp sorted).1 x member
  rcases mem_cons.mp (whole x n (mem_cons_of_mem _ member) shape k lt) with same | inside
  · omega
  · exact inside

lemma Whole.take_first (shape : shapes start = some n) :
    (start :: rest).take n = List.range' start n := by
  refine take_run sorted (fun x member => ?_) fun k lt =>
    whole start n mem_cons_self shape k lt
  rcases mem_cons.mp member with rfl | later
  · exact Nat.le_refl x
  · exact Nat.le_of_lt ((pairwise_cons.mp sorted).1 x later)

end

lemma Whole.drop (sorted : keys.Pairwise (· < ·)) (whole : Whole shapes keys)
    (run : keys.take n = List.range' start n) : Whole shapes (keys.drop n) := by
  intro x m member shape k lt
  obtain ⟨inside, above⟩ := (mem_drop_run sorted run).mp member
  refine (mem_drop_run sorted run).mpr ⟨whole x m inside shape k lt, fun y high low => ?_⟩
  have := above y high low
  omega

/-- A run in front of runs. -/
lemma tiling_cons {runs : List (Nat × Nat)} (sorted : keys.Pairwise (· < ·))
    (shape : shapes start = some n) (positive : 0 < n)
    (run : keys.take n = List.range' start n) (rest : Tiling shapes (· ∈ keys.drop n) runs) :
    Tiling shapes (· ∈ keys) ((start, n) :: runs) := by
  refine ⟨List.forall_mem_cons.mpr ⟨⟨positive, shape⟩, rest.shape⟩,
    pairwise_cons.mpr ⟨fun q member => ?_, rest.apart⟩, fun x => ?_⟩
  · -- the last byte of the run is before the first one of every later run
    have first : q.1 ∈ keys.drop n := (rest.covered q.1).mpr
      ⟨q, member, Nat.le_refl _, Nat.lt_add_of_pos_right (rest.shape q member).1⟩
    have := ((mem_drop_run sorted run).mp first).2 (start + n - 1) (by omega) (by omega)
    omega
  · rw [List.exists_mem_cons_iff, ← rest.covered x]
    nth_rewrite 1 [← List.take_append_drop n keys]
    rw [List.mem_append, run, List.mem_range'_1]
    rfl

end Keys

/-! ## The walk -/

section Walk

variable {shapes : Nat → Option Nat} {value : Nat → Nat} {start n fuel : Nat}
  {rest keys : List Nat} {solution : Nat → Option Nat}

lemma decodeLoop_skip (none : (shapes start).getD 0 = 0) :
    decodeLoop shapes (fuel + 1) ((start :: rest).map fun x => (x, value x)) solution =
      decodeLoop shapes fuel (rest.map fun x => (x, value x)) solution := by
  rw [map_cons]
  simp [decodeLoop, none]

lemma shape_cases (shapes : Nat → Option Nat) (start : Nat) :
    (shapes start).getD 0 = 0 ∨ ∃ n, 0 < n ∧ shapes start = some n := by
  cases shapes start with
  | none => exact .inl rfl
  | some n =>
    rcases Nat.eq_zero_or_pos n with zero | positive
    · exact .inl zero
    · exact .inr ⟨n, positive, rfl⟩

lemma decodeLoop_outside (sorted : keys.Pairwise (· < ·)) (whole : Whole shapes keys) {x : Nat}
    (absent : x ∉ keys) :
    decodeLoop shapes fuel (keys.map fun x => (x, value x)) solution x = solution x := by
  induction fuel generalizing keys solution with
  | zero => rfl
  | succ fuel ih =>
    rcases keys with _ | ⟨start, rest⟩
    · rfl
    rcases shape_cases shapes start with zero | ⟨n, positive, shape⟩
    · rw [decodeLoop_skip zero]
      exact ih (pairwise_cons.mp sorted).2 (whole.tail sorted)
        fun later => absent (mem_cons_of_mem _ later)
    have run := whole.take_first sorted shape
    rw [decodeLoop_run shape positive run,
      ih (sorted.sublist (drop_sublist ..)) (whole.drop sorted run)
        fun later => absent (List.mem_of_mem_drop later), writeBytes_eq, if_neg]
    rintro ⟨low, high⟩
    have inside := whole start n mem_cons_self shape (x - start) (by omega)
    rw [Nat.add_sub_cancel' low] at inside
    exact absent inside

/-- Keys that are all stored, where nothing was before, are runs. -/
lemma runs_of_decodeLoop (value : Nat → Nat) (sorted : keys.Pairwise (· < ·))
    (whole : Whole shapes keys) (enough : keys.length ≤ fuel)
    (blank : ∀ x ∈ keys, solution x = none) (stored : ∀ x ∈ keys,
      decodeLoop shapes fuel (keys.map fun x => (x, value x)) solution x ≠ none) :
    ∃ runs, Tiling shapes (· ∈ keys) runs := by
  have nothing : ∃ runs, Tiling shapes (· ∈ ([] : List Nat)) runs := ⟨[], by simp, .nil, by simp⟩
  induction fuel generalizing keys solution with
  | zero =>
    rw [List.eq_nil_of_length_eq_zero (Nat.le_zero.mp enough)]
    exact nothing
  | succ fuel ih =>
    rcases keys with _ | ⟨start, rest⟩
    · exact nothing
    obtain ⟨first, tail⟩ := pairwise_cons.mp sorted
    rcases shape_cases shapes start with zero | ⟨n, positive, shape⟩
    · -- a key that is skipped is not stored later
      have absent : start ∉ rest := fun again => Nat.lt_irrefl start (first start again)
      have missing := stored start mem_cons_self
      rw [decodeLoop_skip zero, decodeLoop_outside tail (whole.tail sorted) absent] at missing
      exact absurd (blank start mem_cons_self) missing
    · have run := whole.take_first sorted shape
      have empty : ∀ x ∈ (start :: rest).drop n,
          writeBytes start (storedByte value start n) n solution x = none := by
        intro x member
        obtain ⟨inside, above⟩ := (mem_drop_run sorted run).mp member
        rw [writeBytes_eq, if_neg]
        · exact blank x inside
        · rintro ⟨low, high⟩
          exact Nat.lt_irrefl x (above x high low)
      have short : ((start :: rest).drop n).length ≤ fuel := by
        rw [List.length_drop]
        omega
      obtain ⟨runs, later⟩ := ih (sorted.sublist (drop_sublist ..)) (whole.drop sorted run) short
        empty fun x member => by
          rw [← decodeLoop_run shape positive run]
          exact stored x (List.mem_of_mem_drop member)
      exact ⟨_, tiling_cons sorted shape positive run later⟩

end Walk

/-! ## Tasks -/

/-- The offsets of a task are the bytes of disjoint runs, each as long as the shape of its
first offset says. -/
def Tiles (t : SearchTask) : Prop :=
  ∃ runs, Tiling t.shapes (fun x => ∃ i, IsCell t x i) runs

/-- The result has the value of the cell for every offset of the task. -/
def Decodes (t : SearchTask) (cells : Cells) (solution : Nat → Option Nat) : Prop :=
  ∀ x i, IsCell t x i → addResults t cells solution x = some (cells i)

/-- `add_results` stores the bytes in the cells, whatever the solution has held before, just
for the tasks that are tiled by the recorded lengths. -/
theorem addResults_exact_iff {constraints : List (Constraint × AstKind)} {t : SearchTask}
    (drawn : ∀ p, p ∈ constraints → DrawnFrom p.1) (finalized : finalize constraints = some t)
    {cells : Cells} (bytes : ∀ i, cells i ≤ 255) :
    (∀ solution, Decodes t cells solution) ↔ Tiles t := by
  obtain ⟨distinct, closed⟩ := finalize_closed (fun p member => (drawn p member).shaped) finalized
  have keys := mem_orderedInputs distinct cells
  have value : ∀ x i, IsCell t x i → cellAt t cells x = cells i := by
    intro x i cell
    rw [cellAt, orderedInputs_cell distinct cells cell, Option.getD_some]
  have small : ∀ x, cellAt t cells x ≤ 255 := by
    intro x
    by_cases inside : x ∈ (orderedInputs t cells).keys
    · obtain ⟨i, cell⟩ := (keys x).mp inside
      rw [value x i cell]
      exact bytes i
    have none : (orderedInputs t cells).find x = none :=
      Option.not_isSome_iff_eq_none.mp fun found =>
        inside (((orderedInputs t cells).mem_keys x).mpr found)
    rw [cellAt, none]
    exact Nat.zero_le 255
  constructor
  · intro decodes
    have whole : Whole t.shapes (orderedInputs t cells).keys := by
      intro x n member shape k lt
      obtain ⟨i, cell⟩ := (keys x).mp member
      exact (keys (x + k)).mpr (closed x i n cell shape k lt)
    obtain ⟨runs, tiling⟩ := runs_of_decodeLoop (cellAt t cells)
      (orderedInputs t cells).sorted whole (Nat.le_refl _) (fun x _ => rfl)
      fun x member missing => by
        obtain ⟨i, cell⟩ := (keys x).mp member
        have stored := decodes (fun _ => none) x i cell
        rw [addResults_eq, missing] at stored
        cases stored
    exact ⟨runs, tiling.shape, tiling.apart, fun x => (keys x).symm.trans (tiling.covered x)⟩
  · rintro ⟨runs, tiling⟩ solution x i cell
    obtain ⟨r, inside, low, high⟩ := (tiling.covered x).mp ⟨i, cell⟩
    have stored := addResults_tiling distinct cells tiling solution inside (k := x - r.1) (by omega)
    rw [storedByte_of_bytes small (by omega), Nat.add_sub_cancel' low, value x i cell] at stored
    exact stored

/-! ## Two reads -/

/-- Eight input bytes, a read of the first four, one of four bytes from another label on, and
the comparison of the two. -/
def twoReads (second : Nat) : Nat → LabelInfo := (TableGrowth.tableOf
  ((List.range 8).map (fun i => ⟨0, 0, i, 0, .input, 8, 0⟩) ++
    [⟨1, 4, 0, 0, .load, 32, 0⟩, ⟨second, 4, 0, 0, .load, 32, 0⟩,
      ⟨9, 10, 0, 0, .icmp .bveq, 32, 0⟩]) 1000).info

def readsConstraint (second : Nat) : Option Constraint :=
  (doUtaRel (plainContext (twoReads second) [8]) 4 3 11 ⟨.empty, [], 1⟩).map
    fun (ast, s) => ⟨ast, s.args⟩

lemma readsConstraint_drawn {second : Nat} {c : Constraint}
    (made : readsConstraint second = some c) : DrawnFrom c := by
  obtain ⟨⟨_, s⟩, drawn, rfl⟩ := Option.map_eq_some_iff.mp made
  exact ⟨plainContext (twoReads second) [8], 4, 3, 11, s, drawn, rfl⟩

/-- The second read begins behind the first one. -/
theorem addResults_exact_iff_adjacent : ∃ c t, DrawnFrom c ∧ finalize [(c, .equal)] = some t ∧
    ∀ solution, Decodes t (fun _ => 7) solution := by
  have run : ((readsConstraint 5).bind fun c => (finalize [(c, .equal)]).map fun t =>
      (t.inputs.map (·.1), t.shapes 0, t.shapes 4)) =
      some ([0, 1, 2, 3, 4, 5, 6, 7], some 4, some 4) := by decide +kernel
  obtain ⟨c, made, run⟩ := Option.bind_eq_some_iff.mp run
  obtain ⟨t, finalized, values⟩ := Option.map_eq_some_iff.mp run
  simp only [Prod.mk.injEq] at values
  obtain ⟨offsets, first, second⟩ := values
  have drawn : ∀ p ∈ [(c, AstKind.equal)], DrawnFrom p.1 := by
    intro p member
    rw [List.mem_singleton.mp member]
    exact readsConstraint_drawn made
  refine ⟨c, t, readsConstraint_drawn made, finalized, ?_⟩
  refine (addResults_exact_iff drawn finalized fun _ => by decide).mpr ?_
  refine ⟨[(0, 4), (4, 4)], ?_, ?_, fun x => ?_⟩
  · simp [first, second]
  · simp
  · rw [isCell_iff_mem, offsets]
    simp only [mem_cons, List.not_mem_nil, or_false, exists_eq_or_imp, exists_eq_left, Covers]
    omega

/-- The second read begins at offset 2. Its length is at an offset that the walk steps over,
and the bytes at offsets 4 and 5 are not stored. -/
theorem overlapping_read_dropped : ∃ c t, DrawnFrom c ∧ finalize [(c, .equal)] = some t ∧
    IsCell t 4 4 ∧ IsCell t 5 5 ∧ addResults t (fun _ => 7) (fun _ => none) 4 = none ∧
      addResults t (fun _ => 7) (fun _ => none) 5 = none := by
  have run : ((readsConstraint 3).bind fun c => (finalize [(c, .equal)]).map fun t =>
      (t.inputs[4]?.map (·.1), t.inputs[5]?.map (·.1),
        addResults t (fun _ => 7) (fun _ => none) 4, addResults t (fun _ => 7) (fun _ => none) 5)) =
      some (some 4, some 5, none, none) := by decide +kernel
  obtain ⟨c, made, run⟩ := Option.bind_eq_some_iff.mp run
  obtain ⟨t, finalized, values⟩ := Option.map_eq_some_iff.mp run
  simp only [Prod.mk.injEq] at values
  obtain ⟨fourth, fifth, missing4, missing5⟩ := values
  refine ⟨c, t, readsConstraint_drawn made, finalized, ?_, ?_, missing4, missing5⟩
  · obtain ⟨⟨x, v⟩, found, rfl⟩ := Option.map_eq_some_iff.mp fourth
    exact ⟨v, found⟩
  · obtain ⟨⟨x, v⟩, found, rfl⟩ := Option.map_eq_some_iff.mp fifth
    exact ⟨v, found⟩

end ResultDecoding
