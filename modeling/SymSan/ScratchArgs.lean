import Mathlib.Data.List.MinMax
import SymSan.TaskWiring
import SymSan.SolutionBytes
import SymSan.TableGrowth

/-!
# The argument array of a task

`finalize` allocates a slot for each of the two operands, for each cell and for each constant
of the constraint with the most of them, and one more. The arguments of a constraint are its
input bytes and its constants, unless a converted string lies over a byte that has an argument:
the bytes of its number get new arguments, and the old one stays behind without a byte. The
compiled function loads a Read from the argument of its first byte on, and the array ends before
the Read does if the other bytes have arguments in front of it.
-/

namespace ScratchArgs

open LabelTable RgdAst OrderedMaps UtaRel JigsawTask JigsawCode GradientDescent TaskLayout
open CellReaders ShapeTables TaskWiring
open List (mem_filter mem_map mem_zipIdx_iff_getElem?)

variable {c : Constraint} {k : Constraint × ConsMeta} {t : SearchTask}

/-- `const_num`, which counts the constants as they are added to the arguments. -/
def constNum (c : Constraint) : Nat := c.args.inputArgs.countP (!·.1)

/-- The slots that `finalize` allocates. -/
def slots (t : SearchTask) : Nat :=
  2 + t.inputs.length + (t.constraints.map (constNum ·.1)).foldr max 0 + 1

/-- The first argument that the code of a leaf loads, and how many. -/
def span (c : Constraint) (d : NodeData) : Option (Nat × Nat) :=
  match d.kind with
  | .read => (c.args.localMap.find d.index).map fun start => (start, d.bits / 8 - 1 + 1)
  | .constant => some (d.index, (d.bits + 63) / 64)
  | _ => none

/-- The slots that the compiled function loads. -/
def loads (c : Constraint) : List Nat :=
  ((allData c.ast).filterMap (span c)).flatMap fun r => (List.range' r.1 r.2).map (retOffset + ·)

/-- The slots that a constraint uses: those of the operands, those that `distance` and
`single_distance` fill, those that `try_new_i2s_value` fills, and those that the function
loads which they call. -/
def used (k : Constraint × ConsMeta) : List Nat :=
  [0, 1] ++ (List.range k.2.inputArgs.length).map (retOffset + ·) ++
    k.1.args.localMap.entries.map (retOffset + ·.2) ++
    (k.1.args.inputArgs.zipIdx.filter (!·.1.1)).map (retOffset + ·.2) ++ loads k.1

/-- What a leaf loads ends with the bytes of the task and the constants, or one behind them. -/
def Fitting (t : SearchTask) (c : Constraint) : Prop :=
  ∀ d, d ∈ allData c.ast → ∀ r, span c d = some r → 0 < r.2 →
    r.1 + r.2 ≤ t.inputs.length + (t.constraints.map (constNum ·.1)).foldr max 0 + 1

/-- The bytes of every Read have consecutive arguments. -/
def Consecutive (c : Constraint) : Prop :=
  ∀ d, d ∈ allData c.ast → d.kind = .read → ∃ start, ∀ j, j < d.bits / 8 - 1 + 1 →
    c.args.localMap.find (d.index + j) = some (start + j)

/-- The symbolic arguments. -/
def symbolicArgs (c : Constraint) : List Nat := (c.args.inputArgs.zipIdx.filter (·.1.1)).map (·.2)

lemma mem_symbolicArgs {j : Nat} :
    j ∈ symbolicArgs c ↔ ∃ v, c.args.inputArgs[j]? = some (true, v) := by
  simp [symbolicArgs, mem_zipIdx_iff_getElem?]

lemma symbolicArgs_nodup : (symbolicArgs c).Nodup := by
  have all : (c.args.inputArgs.zipIdx.map (·.2)).Nodup := by
    rw [List.zipIdx_map_snd]
    exact List.nodup_range'
  exact all.sublist (List.filter_sublist.map _)

lemma symbolicArgs_length : (symbolicArgs c).length + constNum c = c.args.inputArgs.length := by
  have symbolic : (symbolicArgs c).length = c.args.inputArgs.countP (·.1) := by
    rw [symbolicArgs, List.length_map, ← List.countP_eq_length_filter]
    conv_rhs => rw [← List.zipIdx_map_fst 0 c.args.inputArgs, List.countP_map]
    rfl
  rw [symbolic, constNum, List.length_eq_countP_add_countP (·.1)]
  simp

/-- There are as many arguments as input bytes and constants if and only if every symbolic
argument has a byte. -/
lemma arguments_counted_iff (indexed : Indexed c.args) :
    c.args.inputArgs.length = c.args.localMap.keys.length + constNum c ↔ Owned c := by
  have distinct : (c.args.localMap.entries.map (·.2)).Nodup :=
    List.pairwise_map.mpr ((entries_distinct indexed).imp And.right)
  have inside : c.args.localMap.entries.map (·.2) ⊆ symbolicArgs c := by
    intro j member
    obtain ⟨⟨x, _⟩, entry, rfl⟩ := mem_map.mp member
    exact mem_symbolicArgs.mpr ⟨0, indexed.symbolic x _ (OrderedMap.mem_entries.mp entry)⟩
  have keys : (c.args.localMap.entries.map (·.2)).length = c.args.localMap.keys.length := by
    rw [← entries_keys, List.length_map, List.length_map]
  have some := List.subperm_of_subset distinct inside
  have total := symbolicArgs_length (c := c)
  constructor
  · intro counted j v arg
    have perm := some.perm_of_length_le (by omega)
    obtain ⟨⟨x, _⟩, entry, rfl⟩ := mem_map.mp (perm.mem_iff.mpr (mem_symbolicArgs.mpr ⟨v, arg⟩))
    exact ⟨x, OrderedMap.mem_entries.mp entry⟩
  intro owned
  have all : symbolicArgs c ⊆ c.args.localMap.entries.map (·.2) := by
    intro j member
    obtain ⟨v, arg⟩ := mem_symbolicArgs.mp member
    obtain ⟨x, found⟩ := owned j v arg
    exact mem_map.mpr ⟨(x, j), OrderedMap.mem_entries.mpr found, rfl⟩
  have le := (List.subperm_of_subset symbolicArgs_nodup all).length_le
  have ge := some.length_le
  omega

lemma routed_length (routed : Routed t k) : k.2.inputArgs.length = k.1.args.inputArgs.length := by
  have flags : k.2.inputArgs.map (·.1) = k.1.args.inputArgs.map (·.1) := by
    apply List.ext_getElem?
    simpa using routed.flags
  simpa using congrArg List.length flags

/-- Every input byte of a constraint has a cell of the task. -/
lemma routed_keys_le (routed : Routed t k) : k.1.args.localMap.keys.length ≤ t.inputs.length := by
  have cells : k.1.args.localMap.keys ⊆ t.inputs.map (·.1) := by
    intro x member
    obtain ⟨j, found⟩ := Option.isSome_iff_exists.mp ((k.1.args.localMap.mem_keys x).mp member)
    obtain ⟨_, ⟨v, here⟩, -⟩ := routed.symbolic x j found
    exact mem_map.mpr ⟨(x, v), List.mem_of_getElem? here, rfl⟩
  have nodup : k.1.args.localMap.keys.Nodup := k.1.args.localMap.sorted.imp Nat.ne_of_lt
  simpa using (List.subperm_of_subset nodup cells).length_le

lemma fitting_iff {c : Constraint} : Fitting t c ↔ ∀ i ∈ loads c, i < slots t := by
  simp only [loads, List.mem_flatMap, List.mem_filterMap, mem_map, List.mem_range'_1]
  constructor
  · rintro fitting _ ⟨r, ⟨d, inside, loaded⟩, i, ⟨low, high⟩, rfl⟩
    have := fitting d inside r loaded (by omega)
    simp only [slots, retOffset]
    omega
  · intro below d inside r loaded positive
    have := below _ ⟨r, ⟨d, inside, loaded⟩, r.1 + r.2 - 1, ⟨by omega, by omega⟩, rfl⟩
    simp only [slots, retOffset] at this
    omega

lemma used_cases (indexed : Indexed k.1.args) (routed : Routed t k) {i : Nat}
    (member : i ∈ used k) : i < 2 + k.1.args.inputArgs.length ∨ i ∈ loads k.1 := by
  have inside : ∀ (j : Nat) arg, k.1.args.inputArgs[j]? = some arg →
      retOffset + j < 2 + k.1.args.inputArgs.length := by
    intro j arg place
    have lt := (List.getElem?_eq_some_iff.mp place).1
    simp only [retOffset]
    omega
  simp only [used, List.mem_append, or_assoc] at member
  rcases member with operand | filled | byte | constant | loaded
  · simp only [List.mem_cons, List.not_mem_nil, or_false] at operand
    omega
  · obtain ⟨j, lt, rfl⟩ := mem_map.mp filled
    rw [List.mem_range, routed_length routed] at lt
    exact .inl (Nat.add_lt_add_left lt _)
  · obtain ⟨⟨x, j⟩, entry, rfl⟩ := mem_map.mp byte
    exact .inl (inside j _ (indexed.symbolic x j (OrderedMap.mem_entries.mp entry)))
  · obtain ⟨⟨arg, j⟩, kept, rfl⟩ := mem_map.mp constant
    exact .inl (inside j arg (mem_zipIdx_iff_getElem?.mp (mem_filter.mp kept).1))
  · exact .inr loaded

/-- A constraint without a lost argument has at most as many as the task has room for. -/
lemma arguments_le (indexed : Indexed k.1.args) (routed : Routed t k) (member : k ∈ t.constraints)
    (owned : Owned k.1) : k.1.args.inputArgs.length ≤
      t.inputs.length + (t.constraints.map (constNum ·.1)).foldr max 0 := by
  have total := (arguments_counted_iff indexed).mpr owned
  have bytes := routed_keys_le routed
  have most : constNum k.1 ≤ (t.constraints.map (constNum ·.1)).foldr max 0 :=
    List.le_max_of_le (List.mem_map_of_mem member) (Nat.le_refl _)
  omega

lemma fitting_of_consecutive (indexed : Indexed k.1.args)
    (room : k.1.args.inputArgs.length ≤
      t.inputs.length + (t.constraints.map (constNum ·.1)).foldr max 0)
    (consecutive : Consecutive k.1) (words : SolutionBytes.ConstantWords k.1) :
    Fitting t k.1 := by
  intro d inside r loaded positive
  simp only [span] at loaded
  split at loaded
  next read =>
    obtain ⟨start, found⟩ := consecutive d inside read
    have here := found 0 (by omega)
    rw [Nat.add_zero] at here
    rw [here, Option.map_some] at loaded
    cases loaded
    have last := indexed.symbolic _ _ (found (d.bits / 8 - 1) (by omega))
    have := (List.getElem?_eq_some_iff.mp last).1
    simp only
    omega
  next constant =>
    cases loaded
    simp only at positive ⊢
    obtain ⟨_, last, -⟩ := Option.map_eq_some_iff.mp
      (words d inside constant ((d.bits + 63) / 64 - 1) (by omega))
    have := (List.getElem?_eq_some_iff.mp last).1
    omega
  · cases loaded

def drawnConstraint (ctx : Context) (label : Nat) : Option Constraint :=
  (doUtaRel ctx 8 4 label ⟨.empty, [], 1⟩).map fun (ast, s) => ⟨ast, s.args⟩

lemma drawnConstraint_drawn (ctx : Context) (label : Nat)
    (made : drawnConstraint ctx label = some c) : DrawnFrom c := by
  obtain ⟨⟨_, s⟩, drawn, rfl⟩ := Option.map_eq_some_iff.mp made
  exact ⟨ctx, 8, 4, label, s, drawn, rfl⟩

def byteContext : Context := plainContext (TableGrowth.tableOf
  [⟨0, 0, 0, 0, .input, 8, 0⟩, ⟨1, 0, 3, 4, .icmp .bveq, 8, 0⟩] 1000).info [8]

/-- The comparison of a byte with 4. -/
def equalsFour : Constraint := (drawnConstraint byteContext 2).get (by decide +kernel)

lemma equalsFour_drawn : DrawnFrom equalsFour :=
  drawnConstraint_drawn byteContext 2 (Option.some_get _).symm

/-- Bytes 1 to 4, compared with the number that is converted from byte 0 on. -/
def convertedContext : Context :=
  plainContext (TableGrowth.tableOf [⟨0, 0, 0, 0, .input, 8, 0⟩, ⟨0, 0, 1, 0, .input, 8, 0⟩,
    ⟨0, 0, 2, 0, .input, 8, 0⟩, ⟨0, 0, 3, 0, .input, 8, 0⟩, ⟨0, 0, 4, 0, .input, 8, 0⟩,
    ⟨2, 4, 0, 0, .load, 32, 0⟩, ⟨1, 1, 0, 0, .load, 8, 0⟩, ⟨0, 7, 10, 1, .fatoi, 32, 0⟩,
    ⟨6, 8, 0, 0, .icmp .bveq, 32, 0⟩] 1000).info [8]

end ScratchArgs
