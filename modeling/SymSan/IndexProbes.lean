import SymSan.PinnedLabels
import SymSan.StridedWindows
import SymSan.StackFrames

/-!
# Probes for an index of an array of unknown length

`__taint_solve_bounds` asks, for a pointer with concrete bounds, for an index that leaves the
allocation: one condition for each end. The ends are quotients of wrapped 64-bit distances
and the index is compared as an unsigned number, narrow ones after a zero extension. The
lemma compares the two conditions with the address that the index leads to.
-/

namespace IndexProbes

open LabelTable Denotation TableGrowth TaintUnion RuntimeOps PinnedLabels StridedWindows

/-! ## Addresses -/

def half (w : Nat) : Int := 2 ^ (w - 1)

variable (c : BoundsCall)

/-- The address of an access with the `w`-bit index `v`, which is a signed number. -/
def address (w v : Nat) : Int :=
  c.ptr + signed64 c.currentOffset + signedIn (half w) v * c.elemSize

variable (bounds : LabelInfo)

def OutOfBounds (w v : Nat) : Prop :=
  address c w v < bounds.op1 ∨ bounds.op2 ≤ address c w v

/-- Where index 0 leads, from the start of the allocation. -/
def displacement : Int :=
  c.ptr + signed64 c.currentOffset - bounds.op1

def extent : Int := bounds.op2 - bounds.op1

lemma outOfBounds_iff (w v : Nat) :
    OutOfBounds c bounds w v ↔
      ¬ Hits (displacement c bounds) c.elemSize (extent bounds) (signedIn (half w) v) := by
  unfold OutOfBounds Hits address displacement extent
  omega

/-- Index 0 leads to the start of the allocation or in front of it, by a number of elements,
and the last index is either exact or cut off by the width; or it leads behind the
allocation and both quotients come out right. -/
def ExactQuotients (w : Nat) : Prop :=
  Before (2 ^ 64) (displacement c bounds) c.elemSize (extent bounds) (half w) ∨
    Behind (2 ^ 64) (displacement c bounds) c.elemSize (extent bounds) (half w)

instance (c : BoundsCall) (bounds : LabelInfo) (w : Nat) :
    Decidable (ExactQuotients c bounds w) := by
  unfold ExactQuotients Before Behind
  infer_instance

lemma half_pos (w : Nat) : 1 ≤ half w := by
  have positive : (0 : Int) < 2 ^ (w - 1) := Int.pow_pos (by decide)
  exact positive

lemma two_half {w : Nat} (positive : 1 ≤ w) : 2 * half w = ((2 ^ w : Nat) : Int) := by
  obtain ⟨k, rfl⟩ : ∃ k, w = k + 1 := ⟨w - 1, by omega⟩
  exact Int.mul_comm 2 _

lemma sub64_eq (a b : Nat) : (sub64 a b : Int) = ((a : Int) - b) % 2 ^ 64 := by
  unfold sub64
  omega

lemma signed64_range {x : Nat} (bound : x < 2 ^ 64) :
    -2 ^ 63 ≤ signed64 x ∧ signed64 x < 2 ^ 63 ∧ signed64 x % 2 ^ 64 = x := by
  unfold signed64
  split
  · omega
  · omega

lemma lower_quotient {c : BoundsCall} (bounds : LabelInfo) (offset : c.currentOffset < 2 ^ 64) :
    ((sub64 (sub64 bounds.op1 c.currentOffset) c.ptr / c.elemSize : Nat) : Int) =
      -displacement c bounds % 2 ^ 64 / c.elemSize := by
  have range := signed64_range offset
  have inner := sub64_eq bounds.op1 c.currentOffset
  have outer := sub64_eq (sub64 bounds.op1 c.currentOffset) c.ptr
  rw [Int.natCast_ediv, displacement]
  congr 1
  omega

lemma upper_quotient {c : BoundsCall} (bounds : LabelInfo) (offset : c.currentOffset < 2 ^ 64) :
    ((sub64 (sub64 bounds.op2 c.currentOffset) c.ptr / c.elemSize : Nat) : Int) =
      (extent bounds - displacement c bounds) % 2 ^ 64 / c.elemSize := by
  have range := signed64_range offset
  have inner := sub64_eq bounds.op2 c.currentOffset
  have outer := sub64_eq (sub64 bounds.op2 c.currentOffset) c.ptr
  rw [Int.natCast_ediv, displacement, extent]
  congr 1
  omega

/-! ## The emitted conditions -/

section Emission

variable {fl : Flags} {mem : Nat → Nat} {s s' : Runtime} {c : BoundsCall}

lemma report_icmp {p : Predicate} {size k a b : Nat} {check : UndefinedCheck}
    (topo : Topological s) (plain : Plain s k)
    (run : report fl mem (.icmp p) size ⟨k, 0, a, b⟩ check s = some s') :
    ∃ l t, Answer s (comparison s p size k a b) l t ∧ s' = t.traceCond l check := by
  obtain ⟨⟨l, t⟩, union, rfl⟩ := Option.map_eq_some_iff.mp run
  exact ⟨l, t, taintUnion_answer topo (plain.prepare_icmp topo p) (quiet_icmp p) union, rfl⟩

lemma solveConcrete_emits {lower upper k : Nat} (topo : Topological s) (plain : Plain s k)
    (run : solveConcrete fl mem c lower upper k s = some s') :
    Extends s s' ∧ ∃ lb ub, s'.conds = s.conds ++ [⟨lb, .indexUnderflow⟩, ⟨ub, .indexOverflow⟩] ∧
      ∀ inp x v, x ≤ k →
        denAt s'.info inp x v lb = (compare .bvult (BitVec.ofNat 64 (denAt s.info inp x v k))
          (BitVec.ofNat 64 (sub64 (sub64 lower c.currentOffset) c.ptr / c.elemSize))).toNat ∧
        denAt s'.info inp x v ub = (compare .bvuge (BitVec.ofNat 64 (denAt s.info inp x v k))
          (BitVec.ofNat 64 (sub64 (sub64 upper c.currentOffset) c.ptr / c.elemSize))).toNat := by
  unfold solveConcrete at run
  split at run
  · cases run
  obtain ⟨_, first, second⟩ := Option.bind_eq_some_iff.mp run
  obtain ⟨lb, t, below, rfl⟩ := report_icmp topo plain first
  have topo' : Topological (t.traceCond lb .indexUnderflow) :=
    (below.topological topo plain.le (Nat.zero_le _)).traceCond _ _
  have ext : Extends s (t.traceCond lb .indexUnderflow) := below.ext.trans (.traceCond _ _ _)
  obtain ⟨ub, t', above, rfl⟩ := report_icmp topo' (plain.mono ext) second
  have conds : t'.conds = s.conds ++ [⟨lb, .indexUnderflow⟩] := by
    rw [above.conds, Runtime.traceCond, below.conds]
  refine ⟨(ext.trans above.ext).trans (.traceCond _ _ _), lb, ub, ?_, ?_⟩
  · simp [Runtime.traceCond, conds]
  intro inp x v behind
  constructor
  · have old : denAt t'.info inp x v lb = denAt t.info inp x v lb :=
      denAt_extends inp ((Extends.traceCond _ _ _).trans above.ext) below.le
    exact old.trans (plain.comparison_denAt topo below inp behind)
  · have value := (plain.mono ext).comparison_denAt topo' above inp (v := v) behind
    rw [denAt_extends inp ext plain.le] at value
    exact value

/-- The index label, extended to 64 bits where its record is narrower. -/
lemma extend_index {k a l : Nat} (topo : Topological s) (plain : Plain s k)
    (run : (if (s.info k).size < 64 then taintUnion fl mem s .zext 64 ⟨k, 0, a, 0⟩
      else some (k, s)) = some (l, s')) :
    Topological s' ∧ Plain s' l ∧ s'.conds = s.conds ∧ k ≤ l ∧
      ∀ inp v, v < 2 ^ 64 → denAt s'.info inp k v l = v := by
  split at run
  · have answer := taintUnion_answer topo (plain.prepare_zext topo) (show Quiet .zext by decide) run
    have ordered := answer.ordered topo plain.le (Nat.zero_le _)
    obtain ⟨same, -⟩ := (sameKey_iff _ _).mp answer.fields
    have before : k ≤ l := by
      have below := ordered.1
      rw [same] at below
      exact Nat.le_of_lt below
    refine ⟨answer.topological topo plain.le (Nat.zero_le _),
      .of_answer answer nofun, answer.conds, before, ?_⟩
    intro inp v bound
    rw [plain.zext_denAt topo answer inp (Nat.le_refl k), denAt_self, Nat.mod_eq_of_lt bound]
  · cases run
    exact ⟨topo, plain, rfl, Nat.le_refl k, fun inp v _ => denAt_self inp⟩

end Emission

/-! ## The two conditions together -/

/-- An access through a pointer inside an allocation of concrete size whose index, of `w`
bits, is in bounds. -/
structure Access (s : Runtime) (c : BoundsCall) (w : Nat) : Prop where
  table : Topological s
  index : Plain s c.indexLabel
  bits : width (s.info c.indexLabel) = w
  positive : 1 ≤ w
  narrow : w ≤ 64
  unknown : c.numElems = 0
  initialized : c.ptrLabel ≠ kInitializingLabel
  bounds : (s.info c.ptrLabel).op = .alloca
  concrete : (s.info c.ptrLabel).l2 = 0
  above : (s.info c.ptrLabel).op1 ≤ c.ptr
  below : c.ptr < (s.info c.ptrLabel).op2
  space : (s.info c.ptrLabel).op2 < 2 ^ 64
  element : 0 < c.elemSize
  offset : c.currentOffset < 2 ^ 64
  current : c.index < 2 ^ w
  inside : ¬ OutOfBounds c (s.info c.ptrLabel) w c.index

section Access

variable {fl : Flags} {mem : Nat → Nat} {s s' : Runtime} {c : BoundsCall} {w : Nat}

/-- Both conditions compare the value of the index with a quotient. -/
lemma Access.emits (access : Access s c w) (on : fl.solveUb = true)
    (run : solveBounds fl mem c s = some s') :
    ∃ lb ub, s'.conds = s.conds ++ [⟨lb, .indexUnderflow⟩, ⟨ub, .indexOverflow⟩] ∧
      ∀ inp v, v < 2 ^ 64 →
        (denAt s'.info inp c.indexLabel v lb = 1 ↔
          v < sub64 (sub64 (s.info c.ptrLabel).op1 c.currentOffset) c.ptr / c.elemSize) ∧
        (denAt s'.info inp c.indexLabel v ub = 1 ↔
          sub64 (sub64 (s.info c.ptrLabel).op2 c.currentOffset) c.ptr / c.elemSize ≤ v) := by
  have nonzero := access.index.ne_zero
  have init := access.table.ne_initializing access.index.le
  simp only [solveBounds, nonzero, on, init, access.initialized, access.unknown, access.bounds,
    access.concrete] at run
  obtain ⟨⟨l, _⟩, extended, run⟩ := Option.bind_eq_some_iff.mp run
  obtain ⟨topo, plain, conds, behind, value⟩ := extend_index access.table access.index extended
  obtain ⟨-, lb, ub, emitted, values⟩ := solveConcrete_emits topo plain run
  refine ⟨lb, ub, by rw [emitted, conds], ?_⟩
  intro inp v bound
  obtain ⟨first, second⟩ := values inp c.indexLabel v behind
  have quotient : ∀ b, sub64 (sub64 b c.currentOffset) c.ptr / c.elemSize < 2 ^ 64 := fun b =>
    Nat.lt_of_le_of_lt (Nat.div_le_self _ _) (Nat.mod_lt _ (by decide))
  rw [value inp v bound] at first second
  constructor
  · rw [first]
    exact ult_one bound (quotient _)
  · rw [second]
    exact uge_one bound (quotient _)

end Access

/-- The disjunction of the two conditions is true of exactly the indices that leave the
allocation, if and only if both quotients are exact. -/
theorem index_probes_exact_iff (fl : Flags) (mem : Nat → Nat) (s s' : Runtime) (c : BoundsCall)
    (w : Nat) (on : fl.solveUb = true) (access : Access s c w)
    (run : solveBounds fl mem c s = some s') :
    ∃ lb ub, s'.conds = s.conds ++ [⟨lb, .indexUnderflow⟩, ⟨ub, .indexOverflow⟩] ∧
      ((∀ inp v, v < 2 ^ w →
        (denAt s'.info inp c.indexLabel v lb = 1 ∨ denAt s'.info inp c.indexLabel v ub = 1 ↔
          OutOfBounds c (s.info c.ptrLabel) w v)) ↔
        ExactQuotients c (s.info c.ptrLabel) w) := by
  obtain ⟨lb, ub, emitted, values⟩ := access.emits on run
  refine ⟨lb, ub, emitted, ?_⟩
  have offset := signed64_range access.offset
  have above := access.above
  have below := access.below
  have space := access.space
  have size := two_half access.positive
  have wide : 2 ^ w ≤ 2 ^ 64 := Nat.pow_le_pow_right (by decide) access.narrow
  have hit := not_not.mp ((outOfBounds_iff _ _ _ _).not.mp access.inside)
  have element : (0 : Int) < c.elemSize := Int.natCast_pos.mpr access.element
  have current : (c.index : Int) < 2 * half w := by
    rw [size]
    exact Int.ofNat_lt.mpr access.current
  unfold ExactQuotients
  rw [← quotients_iff (half_pos w) element (by unfold extent; omega) (by unfold extent; omega)
    (by unfold displacement; omega) (by unfold displacement extent; omega) (Int.natCast_nonneg _)
    current hit]
  have lower := lower_quotient (s.info c.ptrLabel) access.offset
  have upper := upper_quotient (s.info c.ptrLabel) access.offset
  constructor
  · intro exact v nonneg bound
    obtain ⟨k, rfl⟩ := Int.eq_ofNat_of_zero_le nonneg
    have small : k < 2 ^ w := by omega
    have here := exact ⟨fun _ _ => 0, fun _ => 0⟩ k small
    obtain ⟨first, second⟩ := values ⟨fun _ _ => 0, fun _ => 0⟩ k (by omega)
    rw [first, second, outOfBounds_iff] at here
    constructor
    · intro window
      by_contra miss
      have out := here.mpr miss
      omega
    · intro inside
      have notOut : ¬ (_ ∨ _) := fun out => here.mp out inside
      omega
  · intro exact inp v bound
    obtain ⟨first, second⟩ := values inp v (by omega)
    have here := exact v (Int.natCast_nonneg v) (by omega)
    rw [first, second, outOfBounds_iff, ← here]
    omega

/-- An input byte, label 1, and ten words at address 8192, label 2. -/
def tenWords : Runtime :=
  tableOf [⟨0, 0, 0, 0, .input, 8, 0⟩, ⟨0, 0, 8192, 8232, .alloca, 64, 0⟩] 1000

/-- Word 3 from a pointer to the given word on, with the byte as the index. -/
def wordAccess (first : Nat) : BoundsCall := ⟨2, 8192 + 4 * first, 1, 3, 0, 4, 0⟩

lemma wordAccess_access {first : Nat} (few : first < 7) :
    Access tenWords (wordAccess first) 8 where
  table := (tableOf_wellFormed (by decide) (by decide) (by decide)).toTopological
  index := ⟨Nat.le_refl 1, show 1 ≤ 2 by decide, show Operator.input ≠ .alloca by decide⟩
  bits := rfl
  positive := by decide
  narrow := by decide
  unknown := rfl
  initialized := show 2 ≠ kInitializingLabel by decide
  bounds := rfl
  concrete := rfl
  above := Nat.le_add_right 8192 _
  below := show 8192 + 4 * first < 8232 by omega
  space := show 8232 < 2 ^ 64 by decide
  element := show 0 < 4 by decide
  offset := show 0 < 2 ^ 64 by decide
  current := show 3 < 2 ^ 8 by decide
  inside := by
    have value : address (wordAccess first) 8 3 = (8192 + 4 * first : Nat) + 0 + 3 * 4 := rfl
    have lower : (tenWords.info 2).op1 = 8192 := rfl
    have upper : (tenWords.info 2).op2 = 8232 := rfl
    change ¬ (address (wordAccess first) 8 3 < ((tenWords.info 2).op1 : Int) ∨
      ((tenWords.info 2).op2 : Int) ≤ address (wordAccess first) 8 3)
    omega

theorem index_probes_exact_iff_first_word :
    ∃ s', solveBounds StackFrames.boundsFlags (fun _ => 0) (wordAccess 0) tenWords = some s' ∧
      ∃ lb ub, s'.conds = tenWords.conds ++ [⟨lb, .indexUnderflow⟩, ⟨ub, .indexOverflow⟩] ∧
        ∀ inp v, v < 2 ^ 8 →
          (denAt s'.info inp 1 v lb = 1 ∨ denAt s'.info inp 1 v ub = 1 ↔
            OutOfBounds (wordAccess 0) (tenWords.info 2) 8 v) := by
  obtain ⟨s', run⟩ := Option.isSome_iff_exists.mp
    (show (solveBounds StackFrames.boundsFlags (fun _ => 0) (wordAccess 0) tenWords).isSome
      from rfl)
  obtain ⟨lb, ub, conds, same⟩ := index_probes_exact_iff StackFrames.boundsFlags (fun _ => 0)
    tenWords s' (wordAccess 0) 8 rfl (wordAccess_access (by decide)) run
  exact ⟨s', run, lb, ub, conds, same.mpr (by decide)⟩

/-- From a pointer to the third word the lower condition asks for an index below 2^62 - 2:
it is true of the current index already. -/
theorem pointer_past_base :
    Access tenWords (wordAccess 2) 8 ∧ ∃ s' lb ub,
      solveBounds StackFrames.boundsFlags (fun _ => 0) (wordAccess 2) tenWords = some s' ∧
      s'.conds = tenWords.conds ++ [⟨lb, .indexUnderflow⟩, ⟨ub, .indexOverflow⟩] ∧
      ¬ ∀ inp v, v < 2 ^ 8 →
        (denAt s'.info inp 1 v lb = 1 ∨ denAt s'.info inp 1 v ub = 1 ↔
          OutOfBounds (wordAccess 2) (tenWords.info 2) 8 v) := by
  have access : Access tenWords (wordAccess 2) 8 := wordAccess_access (by decide)
  obtain ⟨s', run⟩ := Option.isSome_iff_exists.mp
    (show (solveBounds StackFrames.boundsFlags (fun _ => 0) (wordAccess 2) tenWords).isSome
      from rfl)
  obtain ⟨lb, ub, conds, values⟩ := access.emits rfl run
  refine ⟨access, s', lb, ub, run, conds, fun exact => ?_⟩
  have inp : Input := ⟨fun _ _ => 0, fun _ => 0⟩
  have asked := (values inp 3 (by decide)).1.mpr (by decide)
  exact access.inside ((exact inp 3 (by decide)).mp (.inl asked))

end IndexProbes
