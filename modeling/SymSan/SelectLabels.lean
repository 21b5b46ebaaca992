import SymSan.UnionSoundness

/-!
# Labels of a select

Both runtimes give the result of a select between bits a label. If an arm is false they take the
select for a conjunction of the condition and the other arm, if one is true for a disjunction. They
look at the value of the arm on the current input, whether or not it has a label.
-/

namespace SelectLabels

open LabelTable Denotation TableGrowth TaintUnion UnionSoundness

/-- The arguments of `__taint_trace_select`. -/
structure Select where
  condLabel : Nat
  trueLabel : Nat
  falseLabel : Nat
  r : Nat
  trueOp : Nat
  falseOp : Nat

def Select.chosen (c : Select) : Nat := if c.r ≠ 0 then c.trueLabel else c.falseLabel

/-- A label of one bit, or a constant. -/
def bit (info : Nat → LabelInfo) (inp : Input) (l const : Nat) : BitVec 1 :=
  BitVec.ofNat 1 (if l = 0 then const else den info inp l)

/-- The value of the instruction. -/
def Select.value (info : Nat → LabelInfo) (inp : Input) (c : Select) : BitVec 1 :=
  if bit info inp c.condLabel c.r = 1 then bit info inp c.trueLabel c.trueOp
  else bit info inp c.falseLabel c.falseOp

variable (fl : Flags) (mem : Nat → Nat) (s : Runtime) (c : Select)

/-- The part that the copies share. -/
def combine : Option (Nat × Runtime) :=
  if c.trueLabel ≠ 0 ∧ c.falseOp = 0 then
    taintUnion fl mem s .and 1 ⟨c.condLabel, c.trueLabel, c.r, c.trueOp⟩
  else if c.falseLabel ≠ 0 ∧ c.trueOp = 1 then
    taintUnion fl mem s .or 1 ⟨c.condLabel, c.falseLabel, c.r, c.falseOp⟩
  else some (c.chosen, s)

def fastgenTraceSelect : Option (Nat × Runtime) :=
  if c.condLabel = 0 then some (c.chosen, s)
  else if c.condLabel = kInitializingLabel then
    if fl.exitOnMemerror then none else some (c.chosen, s)
  else combine fl mem s c

/-- The copy of the Z3 runtime, at a branch that it has counted `seen` times. -/
def z3TraceSelect (seen : Nat) : Option (Nat × Runtime) :=
  let maxBranchCount := 16
  if c.condLabel = 0 then some (c.chosen, s)
  else if seen < maxBranchCount then combine fl mem s c
  else some (c.chosen, s)

/-- The select is taken for a boolean combination of the condition and an arm. -/
def Combines : Prop :=
  c.condLabel ≠ 0 ∧ (c.trueLabel ≠ 0 ∧ c.falseOp = 0 ∨ c.falseLabel ≠ 0 ∧ c.trueOp = 1)

/-- A label that is built is the select on every input, and otherwise that of the chosen arm. -/
def Right (built : Prop) (s' : Runtime) (l : Nat) : Prop :=
  (built → l ≠ 0 ∧ ∀ inp, den s'.info inp l = (c.value s.info inp).toNat) ∧
    (¬ built → l = c.chosen ∧ s' = s)

/-- On no input does the arm that is left out matter: a conjunction is false wherever the condition
fails, a disjunction true wherever it holds. -/
def Neutral (info : Nat → LabelInfo) : Prop :=
  ∀ inp, if c.trueLabel ≠ 0 ∧ c.falseOp = 0 then
      bit info inp c.condLabel c.r ≠ 1 → bit info inp c.falseLabel c.falseOp = 0
    else bit info inp c.condLabel c.r = 1 → bit info inp c.trueLabel c.trueOp = 1

/-- A constant or a label of one bit, which bounds are not. -/
structure Bit (l const : Nat) : Prop where
  le : l ≤ s.last
  side : Side s.info l const 1
  notBounds : (s.info l).op ≠ .alloca

section

variable {fl mem s c} {op : Operator} {k v : Nat}

/-- With two symbolic operands nothing is simplified. -/
lemma prepare_symbolic (topo : Topological s) (kind : op = .and ∨ op = .or)
    (cond : Bit s c.condLabel c.r) (arm : Bit s k v) (symbolic : c.condLabel ≠ 0)
    (nonzero : k ≠ 0) :
    ∃ key orig, prepare mem s op 1 ⟨c.condLabel, k, c.r, v⟩ = .key key orig ∧ key.op = op := by
  have first := topo.ne_initializing cond.le
  have second := topo.ne_initializing arm.le
  have valid : isValidOp op = true := by
    rcases kind with rfl | rfl
    · decide
    · decide
  have keeps : ∀ o : Operands, o.l1 ≠ 0 → o.l2 ≠ 0 → simplify s op 1 o = .keep op := by
    intro o left right
    rcases kind with rfl | rfl
    all_goals simp [simplify, simplifyLeft, simplifyRight, simplifyShape, left, right]
  obtain ⟨o, ordered, left, right, early⟩ : ∃ o, orderOperands op ⟨c.condLabel, k, c.r, v⟩ = o ∧
      o.l1 ≠ 0 ∧ o.l2 ≠ 0 ∧ earlyReturn s op o = none := by
    rcases orderOperands_cases op ⟨c.condLabel, k, c.r, v⟩ with ordered | ⟨-, ordered⟩
    · exact ⟨_, ordered, symbolic, nonzero,
        by simp [earlyReturn, symbolic, first, second, cond.notBounds, arm.notBounds]⟩
    · exact ⟨_, ordered, nonzero, symbolic,
        by simp [earlyReturn, symbolic, first, second, cond.notBounds, arm.notBounds]⟩
  obtain ⟨same1, same2⟩ := recordOperands_labels mem op 1 o
  have kept := keeps (recordOperands mem op 1 o) (same1 ▸ left) (same2 ▸ right)
  have prepared : prepare mem s op 1 ⟨c.condLabel, k, c.r, v⟩ =
      .key (unionKey s op 1 (recordOperands mem op 1 o)) o := by
    simp [prepare, valid, ordered, early, kept]
  exact ⟨_, _, prepared, rfl⟩

variable (wf : WellFormed s) (cond : Bit s c.condLabel c.r)

include wf cond

/-- The label of a conjunction or a disjunction of the condition and a symbolic arm. -/
lemma union_sound (kind : op = .and ∨ op = .or) (arm : Bit s k v) (symbolic : c.condLabel ≠ 0)
    (nonzero : k ≠ 0) {l : Nat} {s' : Runtime}
    (h : taintUnion fl mem s op 1 ⟨c.condLabel, k, c.r, v⟩ = some (l, s')) :
    l ≠ 0 ∧ ∀ inp, den s'.info inp l = applied s.info inp op 1 ⟨c.condLabel, k, c.r, v⟩ := by
  have sound : Sound s s' op 1 ⟨c.condLabel, k, c.r, v⟩ l := by
    rcases kind with rfl | rfl
    all_goals
      exact taintUnion_sound wf.toTopological (fun _ => wf) rfl (Nat.le_refl 1) (by decide)
        cond.le arm.le ⟨cond.side, arm.side⟩ (fun mismatch => nomatch mismatch.1) h
  obtain ⟨key, orig, prepared, same⟩ :=
    @prepare_symbolic mem s c op k v wf.toTopological kind cond arm symbolic nonzero
  have quiet : Quiet key.op := by
    rw [same]
    rcases kind with rfl | rfl
    all_goals decide
  have pos := (taintUnion_answer wf.toTopological prepared quiet h).pos
  rw [Sound, if_neg (by omega)] at sound
  exact ⟨by omega, sound.2.2⟩

variable (trueArm : Bit s c.trueLabel c.trueOp) (falseArm : Bit s c.falseLabel c.falseOp)

include trueArm falseArm

lemma combine_isSome (room : s.last + 7 < s.stackTop) : (combine fl mem s c).isSome := by
  unfold combine
  split
  · exact taintUnion_of_room wf.toTopological room cond.le trueArm.le
  · split
    · exact taintUnion_of_room wf.toTopological room cond.le falseArm.le
    · rfl

lemma combine_right_iff (symbolic : c.condLabel ≠ 0) {l : Nat} {s' : Runtime}
    (h : combine fl mem s c = some (l, s')) :
    Right s c (Combines c) s' l ↔ (Combines c → Neutral c s.info) := by
  have conjunction : ∀ x y z : BitVec 1,
      (x &&& y).toNat = (if x = 1 then y else z).toNat ↔ (x ≠ 1 → z = 0) := by decide
  have disjunction : ∀ x y z : BitVec 1,
      (x ||| y).toNat = (if x = 1 then z else y).toNat ↔ (x = 1 → z = 1) := by decide
  unfold combine at h
  split at h
  · next land =>
    have built : Combines c := ⟨symbolic, .inl land⟩
    obtain ⟨nonzero, den_eq⟩ := union_sound wf cond (.inl rfl) trueArm symbolic land.1 h
    have meaning : ∀ inp, den s'.info inp l = (c.value s.info inp).toNat ↔
        (bit s.info inp c.condLabel c.r ≠ 1 → bit s.info inp c.falseLabel c.falseOp = 0) := by
      intro inp
      rw [den_eq, Select.value, ← conjunction _ (bit s.info inp c.trueLabel c.trueOp)]
      simp [applied, applyOp, request, operand1, operand2, bit, symbolic, land]
    simp only [Right, built, not_true_eq_false, false_implies, and_true, true_implies, nonzero,
      ne_eq, not_false_eq_true, true_and, Neutral, if_pos land]
    exact forall_congr' meaning
  · next noLand =>
    split at h
    · next lor =>
      have built : Combines c := ⟨symbolic, .inr lor⟩
      obtain ⟨nonzero, den_eq⟩ := union_sound wf cond (.inr rfl) falseArm symbolic lor.1 h
      have meaning : ∀ inp, den s'.info inp l = (c.value s.info inp).toNat ↔
          (bit s.info inp c.condLabel c.r = 1 → bit s.info inp c.trueLabel c.trueOp = 1) := by
        intro inp
        rw [den_eq, Select.value, ← disjunction _ (bit s.info inp c.falseLabel c.falseOp)]
        simp [applied, applyOp, request, operand1, operand2, bit, symbolic, lor]
      simp only [Right, built, not_true_eq_false, false_implies, and_true, true_implies, nonzero,
        ne_eq, not_false_eq_true, true_and, Neutral, if_neg noLand]
      exact forall_congr' meaning
    · next noLor =>
      have apart : ¬ Combines c := fun built => built.2.elim noLand noLor
      obtain ⟨rfl, rfl⟩ := h
      simp [Right, apart]

end

/-- Both copies return, and the label is right exactly if the arm left out of a combination never
matters. The Z3 runtime gives up combining at a branch that it has counted often. -/
theorem select_label_right_iff (seen : Nat) (wf : WellFormed s) (cond : Bit s c.condLabel c.r)
    (trueArm : Bit s c.trueLabel c.trueOp) (falseArm : Bit s c.falseLabel c.falseOp) :
    (s.last + 7 < s.stackTop →
      (fastgenTraceSelect fl mem s c).isSome ∧ (z3TraceSelect fl mem s c seen).isSome) ∧
    (∀ l s', fastgenTraceSelect fl mem s c = some (l, s') →
      (Right s c (Combines c) s' l ↔ (Combines c → Neutral c s.info))) ∧
    ∀ l s', z3TraceSelect fl mem s c seen = some (l, s') →
      (Right s c (Combines c ∧ seen < 16) s' l ↔
        (Combines c ∧ seen < 16 → Neutral c s.info)) := by
  unfold fastgenTraceSelect z3TraceSelect
  rw [if_neg (wf.toTopological.ne_initializing cond.le)]
  have arm : ∀ built, ¬ built → ∀ l s', some (c.chosen, s) = some (l, s') →
      (Right s c built s' l ↔ (built → Neutral c s.info)) := by
    rintro built apart l s' ⟨⟩
    simp [Right, apart]
  by_cases concrete : c.condLabel = 0
  · have apart : ¬ Combines c := fun built => built.1 concrete
    simp only [if_pos concrete]
    exact ⟨fun _ => ⟨rfl, rfl⟩, arm _ apart, arm _ fun built => apart built.1⟩
  have returns : s.last + 7 < s.stackTop → (combine fl mem s c).isSome :=
    combine_isSome wf cond trueArm falseArm
  have right : ∀ l s', combine fl mem s c = some (l, s') →
      (Right s c (Combines c) s' l ↔ (Combines c → Neutral c s.info)) :=
    fun l s' => combine_right_iff wf cond trueArm falseArm concrete
  simp only [if_neg concrete]
  refine ⟨fun room => ⟨returns room, ?_⟩, right, ?_⟩
  · split
    · exact returns room
    · rfl
  · split
    · next few => simpa only [few, and_true] using right
    · next many => exact arm _ fun built => many built.2

/-- Three bytes, each compared with a constant. -/
def comparisons : Runtime := tableOf [⟨0, 0, 0, 0, .input, 8, 0⟩, ⟨0, 0, 1, 0, .input, 8, 0⟩,
  ⟨0, 0, 2, 0, .input, 8, 0⟩, ⟨1, 0, 0, 65, .icmp .bveq, 8, 0⟩, ⟨2, 0, 0, 66, .icmp .bveq, 8, 0⟩,
  ⟨3, 0, 0, 67, .icmp .bveq, 8, 0⟩] 1000

theorem select_label_right_iff_and :
    ∃ l s', fastgenTraceSelect ⟨true, true, false, true⟩ (fun _ => 0) comparisons
      ⟨4, 5, 0, 0, 0, 0⟩ = some (l, s') ∧ l ≠ 0 ∧ ∀ inp, den s'.info inp l =
        (Select.value comparisons.info inp ⟨4, 5, 0, 0, 0, 0⟩).toNat := by
  have right := select_label_right_iff ⟨true, true, false, true⟩ (fun _ => 0) comparisons
    ⟨4, 5, 0, 0, 0, 0⟩ 0 (tableOf_wellFormed (by decide) (by decide) (by decide))
    ⟨by decide, rfl, by decide⟩ ⟨by decide, rfl, by decide⟩
    ⟨by decide, show 0 < 2 by decide, by decide⟩
  obtain ⟨_, h⟩ := Option.isSome_iff_exists.mp (right.1 (by decide)).1
  have built : Combines ⟨4, 5, 0, 0, 0, 0⟩ := ⟨by decide, .inl (by decide)⟩
  exact ⟨_, _, h, ((right.2.1 _ _ h).mpr fun _ inp _ => rfl).1 built⟩

/-- The false arm is false now and has a label: where the condition fails and this arm holds, the
select is true and the conjunction is not. -/
theorem symbolic_arm_lost :
    let inp : Input := ⟨fun _ i => if i = 2 then 67 else 0, fun _ => 0⟩
    let c : Select := ⟨4, 5, 6, 0, 0, 0⟩
    let taken := fun r : Nat × Runtime => (r.1, den r.2.info inp r.1)
    c.value comparisons.info inp = 1 ∧
      (fastgenTraceSelect ⟨true, true, false, true⟩ (fun _ => 0) comparisons c).map taken =
        some (7, 0) ∧
      (z3TraceSelect ⟨true, true, false, true⟩ (fun _ => 0) comparisons c 0).map taken =
        some (7, 0) := by
  decide +kernel

end SelectLabels
