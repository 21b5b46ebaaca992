import SymSan.TableOrder

/-!
# Labels for input bytes

The wrappers of the functions that deliver input give every byte of a buffer a label of
its own, one `dfsan_set_label` of length 1 after the other. Here the labels are created on
the way, for consecutive offsets: what the loop leaves in the table and in the shadow. The
labels of a taint file that is known at the start are created before the target runs.
-/

namespace InputLabels

open LabelTable TableGrowth RuntimeOps

def setLabel (shadow : Nat → Nat) (label addr size : Nat) : Nat → Nat :=
  if addr = 0 then shadow
  else fun a => if addr ≤ a ∧ a < addr + size then label else shadow a

def Machine.setLabel (m : Machine) (label addr size : Nat) : Machine :=
  ⟨m.table, InputLabels.setLabel m.shadow label addr size⟩

def fresh : Machine :=
  ⟨⟨fun l => if l = 0 then constInfo else zeroInfo, 0, 1000, fun _ => [], []⟩, fun _ => 0⟩

def inputRecord (offset : Nat) : LabelInfo :=
  ⟨0, 0, offset % 2 ^ 64, 0, .input, 8, xxhash (UInt32.ofNat offset) 0 8⟩

/-- A new label for each of `n` offsets. -/
def createAll (s : Runtime) (offset : Nat) : Nat → Option Runtime
  | 0 => some s
  | n + 1 => (createLabel s offset).bind fun r => createAll r.2 (offset + 1) n

/-- A new label for each of `n` bytes, in order; the labels and the machine. -/
def createLabels (m : Machine) (offset addr : Nat) : Nat → Option (List Nat × Machine)
  | 0 => some ([], m)
  | n + 1 =>
    (createLabel m.table offset).bind fun r =>
    (createLabels ⟨r.2, setLabel m.shadow r.1 addr 1⟩ (offset + 1) (addr + 1) n).map fun rest =>
      (r.1 :: rest.1, rest.2)

lemma setLabel_outside (shadow : Nat → Nat) (label addr size a : Nat)
    (away : a < addr ∨ addr + size ≤ a) : setLabel shadow label addr size a = shadow a := by
  simp only [setLabel]
  split
  · rfl
  · exact if_neg (by omega)

lemma setLabel_inside (shadow : Nat → Nat) (label addr size a : Nat) (ne : addr ≠ 0)
    (here : addr ≤ a ∧ a < addr + size) : setLabel shadow label addr size a = label := by
  rw [setLabel, if_neg ne]
  exact if_pos here

section Create

variable {m m' : Machine} {s s' : Runtime} {label offset addr n : Nat} {labels : List Nat}

lemma createLabel_some (h : createLabel s offset = some (label, s')) :
    label = s.last + 1 ∧ s' = s.push (inputRecord offset) ∧ s.last + 1 < s.stackTop := by
  obtain ⟨ok, ⟨⟩⟩ := Option.ite_none_right_eq_some.mp h
  exact ⟨rfl, rfl, Runtime.checkLabel_lt ok⟩

/-- The new labels follow the last one. -/
structure Appended (s s' : Runtime) (offset n : Nat) : Prop where
  extends_ : Extends s s'
  last : s'.last = s.last + n
  records : ∀ i, i < n → s'.info (s.last + 1 + i) = inputRecord (offset + i)
  room : 0 < n → s'.last < s'.stackTop

lemma createAll_appended (h : createAll s offset n = some s') : Appended s s' offset n := by
  induction n generalizing s offset with
  | zero =>
    cases h
    exact ⟨.refl _, rfl, nofun, nofun⟩
  | succ n ih =>
    obtain ⟨⟨_, _⟩, first, later⟩ := Option.bind_eq_some_iff.mp h
    obtain ⟨rfl, rfl, room⟩ := createLabel_some first
    obtain ⟨grows, last, records, rest⟩ := ih later
    rw [Runtime.push_last] at last records
    have top := grows.stackTop
    rw [Runtime.push_stackTop] at top
    refine ⟨(Extends.push room _).trans grows, by omega, fun i lt => ?_, fun _ => ?_⟩
    · cases i with
      | zero =>
        rw [grows.same _ (.inl (by simp))]
        exact Runtime.push_info_new _ _
      | succ i =>
        have record := records i (by omega)
        rw [show s.last + 1 + (i + 1) = s.last + 1 + 1 + i by omega, record,
          show offset + 1 + i = offset + (i + 1) by omega]
    · by_cases more : 0 < n
      · exact rest more
      · omega

/-- With the bytes of a buffer, the table is the same and every byte gets its label. -/
structure Created (m m' : Machine) (offset addr n : Nat) : Prop where
  table : Appended m.table m'.table offset n
  inside : addr ≠ 0 → ∀ i, i < n → m'.shadow (addr + i) = m.table.last + 1 + i
  outside : ∀ a, a < addr ∨ addr + n ≤ a → m'.shadow a = m.shadow a

variable (h : createLabels m offset addr n = some (labels, m'))

include h

lemma createLabels_table :
    labels = List.range' (m.table.last + 1) n ∧ createAll m.table offset n = some m'.table := by
  induction n generalizing m offset addr labels with
  | zero =>
    cases h
    exact ⟨rfl, rfl⟩
  | succ n ih =>
    obtain ⟨⟨_, s⟩, first, h⟩ := Option.bind_eq_some_iff.mp h
    obtain ⟨⟨_, _⟩, later, same⟩ := Option.map_eq_some_iff.mp h
    obtain ⟨rfl, rfl⟩ := same
    obtain ⟨rfl, table⟩ := ih later
    obtain ⟨rfl, rfl, -⟩ := createLabel_some first
    refine ⟨rfl, ?_⟩
    rw [createAll, first]
    exact table

lemma createLabels_shadow :
    (addr ≠ 0 → ∀ i < n, m'.shadow (addr + i) = m.table.last + 1 + i) ∧
      ∀ a, a < addr ∨ addr + n ≤ a → m'.shadow a = m.shadow a := by
  induction n generalizing m offset addr labels with
  | zero =>
    cases h
    exact ⟨nofun, fun _ _ => rfl⟩
  | succ n ih =>
    obtain ⟨⟨_, s⟩, first, h⟩ := Option.bind_eq_some_iff.mp h
    obtain ⟨⟨_, _⟩, later, same⟩ := Option.map_eq_some_iff.mp h
    obtain ⟨rfl, rfl⟩ := same
    obtain ⟨inside, outside⟩ := ih later
    obtain ⟨rfl, rfl, -⟩ := createLabel_some first
    rw [Runtime.push_last] at inside
    constructor
    · intro ne i lt
      cases i with
      | zero =>
        rw [Nat.add_zero, outside addr (.inl (by omega))]
        exact setLabel_inside _ _ _ _ _ ne (by omega)
      | succ i =>
        rw [show addr + (i + 1) = addr + 1 + i by omega, inside (by omega) i (by omega)]
        omega
    · intro a away
      rw [outside a (by omega)]
      exact setLabel_outside _ _ _ _ _ (by omega)

lemma createLabels_created :
    labels = List.range' (m.table.last + 1) n ∧ Created m m' offset addr n := by
  obtain ⟨order, table⟩ := createLabels_table h
  obtain ⟨inside, outside⟩ := createLabels_shadow h
  exact ⟨order, createAll_appended table, inside, outside⟩

end Create

end InputLabels
