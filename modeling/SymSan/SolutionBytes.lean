import SymSan.TaskWiring
import SymSan.GradientDescent

/-!
# From cells to bytes

`add_results` walks over the ordered offsets of a task in runs of the recorded lengths and
spells the word over the cells of a run of at most 8 bytes in bytes. A read at the beginning
of such a run has then the same value on the bytes as on the cells, whatever the size of the
cells.
-/

namespace SolutionBytes

open OrderedMaps LittleEndian JigsawTask JigsawCode GradientDescent TaskLayout TaskWiring

/-! ## Decoding a block -/

lemma writeBytes_eq (start n : Nat) (byte : Nat → Nat) (solution : Nat → Option Nat) (x : Nat) :
    writeBytes start byte n solution x =
      if start ≤ x ∧ x < start + n then some (byte (x - start)) else solution x := by
  induction n with
  | zero =>
    rw [if_neg (by omega)]
    rfl
  | succ n ih =>
    simp only [writeBytes] at ih ⊢
    rw [List.range_succ, List.foldl_append, List.foldl_cons, List.foldl_nil]
    by_cases here : x = start + n
    · rw [here, Function.update_self, if_pos (by omega), Nat.add_sub_cancel_left]
    · rw [Function.update_of_ne here, ih]
      by_cases inside : start ≤ x ∧ x < start + n
      · rw [if_pos inside, if_pos (by omega)]
      · rw [if_neg inside, if_neg (by omega)]

lemma joinCells_run (value : Nat → Nat) (start n j : Nat) :
    joinCells ((List.range' start n).map fun x => (x, value x)) j =
      word (fun k => value (start + k)) n * 256 ^ j % 2 ^ 64 := by
  induction n generalizing start j with
  | zero => simp [joinCells]
  | succ n ih =>
    have split := word_append (fun k => value (start + k)) 1 n
    rw [Nat.add_comm 1 n, word_one, Nat.pow_one] at split
    have shifted : (fun k => value (start + (1 + k))) = fun k => value (start + 1 + k) := by
      funext k
      rw [Nat.add_assoc]
    rw [List.range'_succ, List.map_cons, joinCells, ih, Nat.add_mod_mod, split, shifted,
      two_pow_mul_eight, Nat.pow_succ, Nat.add_mul, Nat.mul_assoc, Nat.mul_comm 256]
    rfl

lemma byteAt_mod (v : Nat) {k m : Nat} (lt : k < m) : byteAt (v % 256 ^ m) k = byteAt v k := by
  have split : 256 ^ m = 256 ^ k * 256 ^ (m - k) := by rw [← Nat.pow_add]; congr 1; omega
  have one : 256 ∣ 256 ^ (m - k) := dvd_pow_self 256 (by omega)
  rw [byteAt, byteAt, split, Nat.mod_mul_right_div_self, Nat.mod_mod_of_dvd _ one]

section Decode

variable {shapes : Nat → Option Nat} {value : Nat → Nat} {keys : List Nat} {start n fuel : Nat}
  {solution : Nat → Option Nat}

/-- The byte that is stored for the `k`-th cell of a run: the cells of a run of at most 8
bytes are joined, those of a longer one are cut. -/
def storedByte (value : Nat → Nat) (start n k : Nat) : Nat :=
  if n ≤ 8 then byteAt (word (fun j => value (start + j)) n) k else value (start + k) % 256

lemma storedByte_of_bytes (bytes : ∀ x, value x ≤ 255) {k : Nat} (lt : k < n) :
    storedByte value start n k = value (start + k) := by
  rw [storedByte]
  split
  · exact byteAt_word lt fun j _ => Nat.lt_succ_of_le (bytes _)
  · exact Nat.mod_eq_of_lt (Nat.lt_succ_of_le (bytes _))

lemma writeBytes_congr {byte byte' : Nat → Nat} (same : ∀ k < n, byte k = byte' k) :
    writeBytes start byte n solution = writeBytes start byte' n solution := by
  funext x
  rw [writeBytes_eq, writeBytes_eq]
  by_cases inside : start ≤ x ∧ x < start + n
  · rw [if_pos inside, if_pos inside, same (x - start) (by omega)]
  · rw [if_neg inside, if_neg inside]

/-- The loop decodes the run at the first key and goes on behind it. -/
lemma decodeLoop_run (shape : shapes start = some n) (positive : 0 < n)
    (run : (start :: keys).take n = List.range' start n) :
    decodeLoop shapes (fuel + 1) ((start :: keys).map fun x => (x, value x)) solution =
      decodeLoop shapes fuel (((start :: keys).drop n).map fun x => (x, value x))
        (writeBytes start (storedByte value start n) n solution) := by
  rw [List.map_cons]
  simp only [decodeLoop, shape, Option.getD_some]
  rw [if_neg (by omega), ← List.map_cons (f := fun x => (x, value x)), ← List.map_take,
    ← List.map_drop, run]
  by_cases narrow : n ≤ 8
  · rw [if_pos narrow, joinCells_run, Nat.pow_zero, Nat.mul_one]
    congr 1
    apply writeBytes_congr
    intro k lt
    rw [storedByte, if_pos narrow, two_pow_mul_eight, ← byteAt, show 2 ^ 64 = 256 ^ 8 by decide,
      byteAt_mod _ (Nat.lt_of_lt_of_le lt narrow)]
  · rw [if_neg narrow]
    congr 1
    apply writeBytes_congr
    intro k lt
    rw [storedByte, if_neg narrow, List.getD_eq_getElem?_getD, List.getElem?_map,
      List.getElem?_range' lt]
    simp only [Option.map_some, Option.getD_some, Nat.one_mul]

/-- The offsets that are present are the bytes of disjoint runs, each as long as the shape of
its first offset says. -/
structure Tiling (shapes : Nat → Option Nat) (present : Nat → Prop) (runs : List (Nat × Nat)) :
    Prop where
  shape : ∀ r, r ∈ runs → 0 < r.2 ∧ shapes r.1 = some r.2
  apart : runs.Pairwise fun r q => r.1 + r.2 ≤ q.1
  covered : ∀ x, present x ↔ ∃ r, r ∈ runs ∧ Covers r x

lemma Tiling.first {r : Nat × Nat} {runs : List (Nat × Nat)} (sorted : keys.Pairwise (· < ·))
    (tiling : Tiling shapes (· ∈ keys) (r :: runs)) :
    keys.take r.2 = List.range' r.1 r.2 ∧ Tiling shapes (· ∈ keys.drop r.2) runs := by
  obtain ⟨behind, apart⟩ := List.pairwise_cons.mp tiling.apart
  have covered := tiling.covered
  simp only [List.exists_mem_cons_iff] at covered
  have low : ∀ x ∈ keys, r.1 ≤ x := by
    intro x member
    rcases (covered x).mp member with covers | ⟨q, inside, covers⟩
    · exact covers.1
    · have := behind q inside
      have := covers.1
      omega
  have run : keys.take r.2 = List.range' r.1 r.2 :=
    take_run sorted low fun k lt => (covered _).mpr (.inl ⟨Nat.le_add_right .., by omega⟩)
  refine ⟨run, fun q inside => tiling.shape q (List.mem_cons_of_mem _ inside), apart,
    fun x => ?_⟩
  rw [mem_drop_run sorted run, covered x]
  constructor
  · rintro ⟨covers | later, above⟩
    · exact absurd (above x covers.2 covers.1) (Nat.lt_irrefl x)
    · exact later
  rintro ⟨q, inside, covers⟩
  refine ⟨.inr ⟨q, inside, covers⟩, fun y high _ => ?_⟩
  have := behind q inside
  have := covers.1
  omega

/-- The walk over the keys stores the bytes of every run and nothing else. -/
lemma decodeLoop_tiling {runs : List (Nat × Nat)} (sorted : keys.Pairwise (· < ·))
    (tiling : Tiling shapes (· ∈ keys) runs) (enough : keys.length ≤ fuel) :
    (∀ x ∉ keys, decodeLoop shapes fuel (keys.map fun x => (x, value x)) solution x =
      solution x) ∧
      ∀ r ∈ runs, ∀ k < r.2,
        decodeLoop shapes fuel (keys.map fun x => (x, value x)) solution (r.1 + k) =
          some (storedByte value r.1 r.2 k) := by
  induction runs generalizing keys fuel solution with
  | nil =>
    have empty : keys = [] := by
      apply List.eq_nil_iff_forall_not_mem.mpr
      intro x member
      obtain ⟨r, ⟨⟩, -⟩ := (tiling.covered x).mp member
    rw [empty]
    refine ⟨fun x _ => by cases fuel <;> rfl, ?_⟩
    rintro r ⟨⟩
  | cons r runs ih =>
    obtain ⟨run, rest⟩ := tiling.first sorted
    obtain ⟨positive, shape⟩ := tiling.shape r List.mem_cons_self
    obtain ⟨o, n⟩ := r
    rcases keys with _ | ⟨start, keys⟩
    · obtain ⟨m, rfl⟩ := Nat.exists_eq_succ_of_ne_zero (Nat.pos_iff_ne_zero.mp positive)
      cases run
    obtain rfl : start = o := by
      have head := congrArg List.head? run
      rw [List.head?_take, if_neg (by simp only at positive; omega), List.head?_range',
        if_neg (by simp only at positive; omega)] at head
      exact Option.some.inj head
    obtain ⟨fuel, rfl⟩ : ∃ less, fuel = less + 1 :=
      Nat.exists_eq_succ_of_ne_zero (by simp only [List.length_cons] at enough; omega)
    have short : ((start :: keys).drop n).length ≤ fuel := by
      rw [List.length_drop]
      simp only at positive
      omega
    obtain ⟨others, stored⟩ := @ih _ _ (writeBytes start (storedByte value start n) n solution)
      (sorted.sublist (List.drop_sublist n _)) rest short
    rw [decodeLoop_run shape positive run]
    have present : ∀ x, start ≤ x ∧ x < start + n → x ∈ start :: keys := fun x inside =>
      (tiling.covered x).mpr ⟨(start, n), List.mem_cons_self, inside⟩
    refine ⟨fun x absent => ?_, List.forall_mem_cons.mpr ⟨fun k lt => ?_, stored⟩⟩
    · rw [others x fun later => absent (List.mem_of_mem_drop later), writeBytes_eq,
        if_neg fun inside => absent (present x inside)]
    · have gone : start + k ∉ (start :: keys).drop n := by
        intro later
        have above := ((mem_drop_run sorted run).mp later).2
        exact Nat.lt_irrefl _ (above (start + k) (by simp only at lt; omega) (by omega))
      rw [others _ gone, writeBytes_eq, if_pos ⟨Nat.le_add_right .., by simp only at lt; omega⟩,
        Nat.add_sub_cancel_left]

end Decode

/-! ## Decoding a task -/

section Task

variable {t : SearchTask}

section

variable (distinct : ∀ x i j, IsCell t x i → IsCell t x j → i = j) (cells : Cells)

include distinct cells

lemma orderedInputs_cell {x i : Nat} (cell : IsCell t x i) :
    (orderedInputs t cells).find x = some (cells i) := by
  obtain ⟨v, here⟩ := cell
  refine OrderedMap.find_inserts ?_ _ (.inr ⟨((x, v), i), ?_, rfl⟩)
  · rintro ⟨⟨y, w⟩, j⟩ member rfl
    have there := List.mem_zipIdx_iff_getElem?.mp member
    rw [distinct _ i j ⟨v, here⟩ ⟨w, there⟩]
  · exact List.mem_zipIdx_iff_getElem?.mpr here

lemma mem_orderedInputs (x : Nat) : x ∈ (orderedInputs t cells).keys ↔ ∃ i, IsCell t x i := by
  rw [OrderedMap.mem_keys]
  constructor
  · intro found
    by_contra absent
    have none : (orderedInputs t cells).find x = none := by
      refine OrderedMap.find_inserts_of_absent ?_ _
      rintro ⟨⟨y, w⟩, j⟩ member rfl
      exact absent ⟨j, w, List.mem_zipIdx_iff_getElem?.mp member⟩
    rw [none] at found
    cases found
  · rintro ⟨i, cell⟩
    rw [orderedInputs_cell distinct cells cell]
    rfl

end

lemma isCell_iff_mem {x : Nat} : (∃ i, IsCell t x i) ↔ x ∈ t.inputs.map (·.1) := by
  simp only [IsCell, List.mem_iff_getElem?, List.getElem?_map, Option.map_eq_some_iff,
    Prod.exists, exists_and_right, exists_eq_right]

/-- The bytes of a solution: for each cell the one in the solution, or the initial one. -/
def bytesOf (t : SearchTask) (solution : Nat → Option Nat) : Cells := fun i =>
  match t.inputs[i]? with
  | some (x, v) => (solution x).getD v
  | none => 0

/-- The cell of an offset, by the offset. -/
def cellAt (t : SearchTask) (cells : Cells) (x : Nat) : Nat :=
  ((orderedInputs t cells).find x).getD 0

lemma addResults_eq (cells : Cells) (solution : Nat → Option Nat) :
    addResults t cells solution = decodeLoop t.shapes (orderedInputs t cells).keys.length
      ((orderedInputs t cells).keys.map fun x => (x, cellAt t cells x)) solution := by
  simp only [addResults]
  rw [OrderedMap.entries_eq_map _ 0, List.length_map]
  rfl

lemma addResults_tiling (distinct : ∀ x i j, IsCell t x i → IsCell t x j → i = j) (cells : Cells)
    {runs : List (Nat × Nat)} (tiling : Tiling t.shapes (fun x => ∃ i, IsCell t x i) runs)
    (solution : Nat → Option Nat) {r : Nat × Nat} (inside : r ∈ runs) {k : Nat} (lt : k < r.2) :
    addResults t cells solution (r.1 + k) = some (storedByte (cellAt t cells) r.1 r.2 k) := by
  have keys : Tiling t.shapes (· ∈ (orderedInputs t cells).keys) runs :=
    ⟨tiling.shape, tiling.apart, fun x =>
      (mem_orderedInputs distinct cells x).trans (tiling.covered x)⟩
  rw [addResults_eq]
  exact (decodeLoop_tiling (orderedInputs t cells).sorted keys (Nat.le_refl _)).2 r inside k lt

end Task

/-! ## Reads -/

/-- The bytes of a longer run have the value of the cells at its beginning. -/
lemma readBytes_bytes {args args' : Nat → Nat} (value : Nat → Nat) {start start' bits n m : Nat}
    (positive : 0 < n) (width : bits = 8 * n) (le : n ≤ m)
    (cells : ∀ k < n, args (start + k) = value k)
    (bytes : ∀ k < n, args' (start' + k) = byteAt (word value m) k) :
    readBytes args' start' bits (bits / 8 - 1) = readBytes args start bits (bits / 8 - 1) := by
  subst width
  have last : 8 * n / 8 - 1 + 1 = n := by omega
  have behind := word_append value n (m - n)
  rw [Nat.add_sub_cancel' le] at behind
  rw [readBytes_eq, readBytes_eq, last, word_congr bytes, word_congr cells, word_byteAt, behind,
    Nat.add_mul_mod_self_right]
  apply BitVec.eq_of_toNat_eq
  rw [BitVec.toNat_ofNat, BitVec.toNat_ofNat, two_pow_mul_eight, Nat.mod_mod]

lemma loadWords_congr {args args' : Nat → Nat} {start n : Nat}
    (same : ∀ k < n, args (start + k) = args' (start + k)) :
    loadWords args start n = loadWords args' start n := by
  induction n with
  | zero => rfl
  | succ n ih =>
    rw [loadWords, loadWords, ih fun k lt => same k (by omega), same n (by omega)]

lemma loadArgs_cell {inputArgs : List (Bool × Nat)} {j cell : Nat} (cells : Cells)
    (scratch : Nat → Nat) (arg : inputArgs[j]? = some (true, cell)) :
    loadArgs inputArgs cells scratch (j + retOffset) = cells cell := by
  simp only [loadArgs]
  rw [if_neg (by omega), Nat.add_sub_cancel, arg]

lemma loadArgs_constant {inputArgs : List (Bool × Nat)} {j v : Nat} (cells : Cells)
    (scratch : Nat → Nat) (arg : inputArgs[j]? = some (false, v)) :
    loadArgs inputArgs cells scratch (j + retOffset) = v := by
  simp only [loadArgs]
  rw [if_neg (by omega), Nat.add_sub_cancel, arg]

/-- Every Read of the task lies at the beginning of a run of at most 8 bytes that the walk of
`add_results` joins, and its bytes have consecutive arguments. -/
structure Followed (t : SearchTask) (runs : List (Nat × Nat)) : Prop where
  tiling : Tiling t.shapes (fun x => ∃ i, IsCell t x i) runs
  read : ∀ k, k ∈ t.constraints → ∀ d, d ∈ allData k.1.ast → d.kind = .read →
    ∃ n m first, 0 < n ∧ d.bits = 8 * n ∧ (d.index, m) ∈ runs ∧ n ≤ m ∧ m ≤ 8 ∧
      ∀ j, j < n → k.1.args.localMap.find (d.index + j) = some (first + j)

/-- The words of a constant are constant arguments. -/
def ConstantWords (c : Constraint) : Prop :=
  ∀ d, d ∈ allData c.ast → d.kind = .constant → ∀ k, k < (d.bits + 63) / 64 →
    c.args.inputArgs[d.index + k]?.map (·.1) = some false

lemma sameLeaves_bytes {t : SearchTask} {k : Constraint × ConsMeta} {runs : List (Nat × Nat)}
    (distinct : ∀ x i j, IsCell t x i → IsCell t x j → i = j) (followed : Followed t runs)
    (member : k ∈ t.constraints) (routed : Routed t k) (words : ConstantWords k.1)
    (cells : Cells) (solution : Nat → Option Nat) (scratch scratch' : Nat → Nat) :
    SameLeaves k.1.args.localMap
      (loadArgs k.2.inputArgs (bytesOf t (addResults t cells solution)) scratch')
      (loadArgs k.2.inputArgs cells scratch) k.1.ast := by
  intro d inside
  by_cases isRead : d.kind = .read
  · obtain ⟨n, m, first, positive, bits, inRuns, le, narrow, args⟩ :=
      followed.read k member d inside isRead
    choose! cell isCell arg using fun j lt => routed.symbolic _ _ (args j lt)
    have start : k.1.args.localMap.find d.index = some first := args 0 positive
    simp only [nullary, isRead, start, Option.map_some]
    congr 2
    refine readBytes_bytes (fun j => cellAt t cells (d.index + j)) positive bits le
      (fun j lt => ?_) fun j lt => ?_
    · rw [Nat.add_right_comm, loadArgs_cell _ _ (arg j lt), cellAt,
        orderedInputs_cell distinct cells (isCell j lt), Option.getD_some]
    · have stored := addResults_tiling distinct cells followed.tiling solution inRuns
        (Nat.lt_of_lt_of_le lt le)
      rw [storedByte, if_pos narrow] at stored
      obtain ⟨_, here⟩ := isCell j lt
      rw [Nat.add_right_comm, loadArgs_cell _ _ (arg j lt)]
      simp [bytesOf, here, stored]
  · by_cases isConstant : d.kind = .constant
    · simp only [nullary, isConstant]
      congr 3
      refine loadWords_congr fun j lt => ?_
      obtain ⟨⟨_, v⟩, constant, rfl⟩ :=
        Option.map_eq_some_iff.mp (words d inside isConstant j lt)
      have arg := routed.constant _ v constant
      rw [Nat.add_right_comm, loadArgs_constant _ _ arg, loadArgs_constant _ _ arg]
    · unfold nullary
      split
      · rfl
      · exact absurd ‹_› isConstant
      · exact absurd ‹_› isRead
      · rfl

end SolutionBytes
