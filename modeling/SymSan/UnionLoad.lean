import SymSan.UnionSoundness

/-!
# `__taint_union_load`

A load combines the labels of `n` shadow cells. Its paths are kept apart: equal
constant or bounds labels, raw bytes at consecutive offsets, extracts of one
parent, and the loop that concatenates cell by cell. `ls` is the shadow array
at address `ptr` and `app` the application bytes it shadows. The length is at
least one; a length of zero sends the source past the end of the array. Counts
and addresses are 64-bit and do not wrap, but a size argument is converted to
16 bits and a label argument to 32.
-/

namespace UnionLoad

open LabelTable Denotation TableGrowth TaintUnion

/-- The outcome of a loop over shadow cells: an uninitialised cell ends the call. -/
inductive Scan where
  | uninit
  | yes
  | no
  deriving DecidableEq, Repr

/-- Check the `k` cells from `i` on, up to the first one that fails. -/
def scan (ls : Nat → Nat) (ok : Nat → Bool) : Nat → Nat → Scan
  | 0, _ => .yes
  | k + 1, i =>
    if ls i = kInitializingLabel then .uninit
    else if ok i then scan ls ok k (i + 1)
    else .no

/-- Fast path 1: a constant or bounds label in every cell. -/
def constantScan (s : Runtime) (ls : Nat → Nat) (n : Nat) : Scan :=
  if ls 0 = 0 ∨ (s.info (ls 0)).op = .alloca then
    scan ls (fun i => ls i = ls 0) (n - 1) 1
  else .no

/-- The shape test looks at the first operand field of each cell's record. -/
def shapeScan (s : Runtime) (ls : Nat → Nat) (n : Nat) : Scan :=
  if (s.info (ls 0)).op ≠ .input then .no
  else scan ls (fun i => (s.info (ls i)).op1 = ((s.info (ls 0)).op1 + i) % 2 ^ 64) (n - 1) 1

/-- Bits covered by extracts of `parent` in sequence; `none` at an uninitialised cell. -/
def extractScan (s : Runtime) (ls : Nat → Nat) (parent : Nat) : Nat → Nat → Nat → Option Nat
  | 0, _, offset => some offset
  | k + 1, i, offset =>
    if ls i = kInitializingLabel then none
    else if (s.info (ls i)).op ≠ .extract ∨ offset ≠ (s.info (ls i)).op2 ∨
        parent ≠ (s.info (ls i)).l1 then some offset
    else extractScan s ls parent k (i + 1) (offset + (s.info (ls i)).size)

/-- The loop over the cells, from cell `i` with `label` for those before it.
An iteration that does not advance would repeat for ever, so `n` rounds are
enough for every run that ends. -/
def slowPath (fl : Flags) (mem : Nat → Nat) (ls : Nat → Nat) (app : Nat → BitVec 8) (n : Nat) :
    Nat → Nat → Nat → Runtime → Option (Nat × Runtime)
  | 0, i, label, s => if n ≤ i then some (label, s) else none
  | fuel + 1, i, label, s =>
    if n ≤ i then some (label, s)
    else if ls i = kInitializingLabel then some (kInitializingLabel, s)
    else if ls i ≠ 0 then
      let nextSize := (s.info (ls i)).size
      if nextSize ≤ (n - i) * 8 then
        (taintUnion fl mem s .concat ((i + nextSize / 8) * 8 % 2 ^ 16)
          ⟨label, ls i, 0, 0⟩).bind fun r =>
        slowPath fl mem ls app n fuel (i + nextSize / 8) r.1 r.2
      else
        (taintUnion fl mem s .trunc ((n - i) * 8 % 2 ^ 16) ⟨ls i, 0, 0, 0⟩).bind fun r =>
        taintUnion fl mem r.2 .concat (n * 8 % 2 ^ 16) ⟨label, r.1, 0, 0⟩
    else
      -- the concrete byte is a signed char
      (taintUnion fl mem s .concat ((i + 1) * 8 % 2 ^ 16)
        ⟨label, 0, 0, ((app i).signExtend 64).toNat⟩).bind fun r =>
      slowPath fl mem ls app n fuel (i + 1) r.1 r.2

/-- `__taint_union_load(ls, n, align)`; the alignment only produces a warning. -/
def unionLoad (fl : Flags) (mem : Nat → Nat) (s : Runtime) (ptr : Nat) (ls : Nat → Nat)
    (app : Nat → BitVec 8) (n : Nat) : Option (Nat × Runtime) :=
  if ptr < 4096 then some (0, s)
  else if ls 0 = kInitializingLabel then some (kInitializingLabel, s)
  else if fl.asserts = true ∧ 1 ≤ ls 0 ∧ (s.info (ls 0)).size = 0 then none
  else match constantScan s ls n with
  | .uninit => some (kInitializingLabel, s)
  | .yes => some (ls 0, s)
  | .no => match shapeScan s ls n with
    | .uninit => some (kInitializingLabel, s)
    | .yes =>
      if n = 1 then some (ls 0, s)
      else taintUnion fl mem s .load (n * 8 % 2 ^ 16) ⟨ls 0, n % 2 ^ 32, 0, 0⟩
    | .no =>
      let parent := (s.info (ls 0)).l1
      let slow := slowPath fl mem ls app n n ((s.info (ls 0)).size / 8) (ls 0) s
      if (s.info (ls 0)).op = .extract then
        match extractScan s ls parent n 0 0 with
        | none => some (kInitializingLabel, s)
        | some offset =>
          if (s.info parent).size = offset ∧ offset = n * 8 then some (parent, s) else slow
      else slow

/-! ## Cells that hold bytes -/

/-- A cell of a byte: concrete, or a label of width 8 whose operands come before it. -/
def ByteCell (s : Runtime) (l : Nat) : Prop :=
  l = 0 ∨ 1 ≤ l ∧ l ≤ s.last ∧ width (s.info l) = 8 ∧ (s.info l).op ≠ .alloca ∧ Ordered s.info l

def byteValue (info : Nat → LabelInfo) (inp : Input) (ls : Nat → Nat) (app : Nat → BitVec 8)
    (i : Nat) : Nat :=
  if ls i = 0 then (app i).toNat else den info inp (ls i)

def ShapeMatches (s : Runtime) (ls : Nat → Nat) (n : Nat) : Prop :=
  (s.info (ls 0)).op = .input ∧
    ∀ i, 1 ≤ i → i < n → (s.info (ls i)).op1 = ((s.info (ls 0)).op1 + i) % 2 ^ 64

/-- The cells are the extracts of one parent whose size field is the load's size. -/
def ExtractsMatch (s : Runtime) (ls : Nat → Nat) (n : Nat) : Prop :=
  (∀ i, i < n → (s.info (ls i)).op = .extract ∧ (s.info (ls i)).op2 = 8 * i ∧
    (s.info (ls i)).l1 = (s.info (ls 0)).l1) ∧
    (s.info (s.info (ls 0)).l1).size = 8 * n

section Cells

variable {s : Runtime} {ls : Nat → Nat} {app : Nat → BitVec 8} {n i k l : Nat}

lemma ByteCell.ne_uninit (topo : Topological s) (cell : ByteCell s l) :
    l ≠ kInitializingLabel := by
  rcases cell with rfl | ⟨_, le, _⟩
  · exact zero_ne_initializing
  · exact topo.ne_initializing le

lemma ByteCell.le (cell : ByteCell s l) : l ≤ s.last := by
  rcases cell with zero | ⟨_, le, _⟩
  · omega
  · exact le

lemma ByteCell.size (const : s.info 0 = constInfo) (cell : ByteCell s l) :
    (s.info l).size = 8 := by
  rcases cell with rfl | ⟨_, _, hw, _⟩
  · rw [const]; rfl
  simp only [width] at hw
  split at hw
  · omega
  · omega
  · exact hw

lemma ByteCell.not_alloca (const : s.info 0 = constInfo) (cell : ByteCell s l) :
    (s.info l).op ≠ .alloca := by
  rcases cell with rfl | ⟨_, _, _, ne, _⟩
  · rw [const]; decide
  · exact ne

lemma byteValue_lt (inp : Input) (cell : ByteCell s (ls i)) :
    byteValue s.info inp ls app i < 256 := by
  by_cases zero : ls i = 0
  · simp only [byteValue, if_pos zero]
    exact (app i).isLt
  simp only [byteValue, if_neg zero]
  rcases cell with cell | ⟨_, _, hw, _⟩
  · exact absurd cell zero
  · have := den_lt s.info inp (ls i)
    rwa [hw] at this

/-! ## The scans -/

lemma scan_of_initialised (ok : Nat → Bool)
    (init : ∀ j, i ≤ j → j < i + k → ls j ≠ kInitializingLabel) :
    scan ls ok k i = .yes ∧ (∀ j, i ≤ j → j < i + k → ok j = true) ∨
      scan ls ok k i = .no ∧ ∃ j, i ≤ j ∧ j < i + k ∧ ok j = false := by
  induction k generalizing i with
  | zero => exact .inl ⟨rfl, fun j hj hk => by omega⟩
  | succ k ih =>
    have here := init i (Nat.le_refl i) (by omega)
    have rest := ih (i := i + 1) (fun j hj hk => init j (by omega) (by omega))
    cases hok : ok i with
    | false =>
      refine .inr ⟨?_, i, Nat.le_refl i, by omega, hok⟩
      simp [scan, here, hok]
    | true =>
      have step : scan ls ok (k + 1) i = scan ls ok k (i + 1) := by
        simp [scan, here, hok]
      rw [step]
      rcases rest with ⟨hyes, all⟩ | ⟨hno, j, hj, hk, hf⟩
      · refine .inl ⟨hyes, ?_⟩
        intro j hj hk
        by_cases heq : j = i
        · rw [heq]; exact hok
        · exact all j (by omega) (by omega)
      · exact .inr ⟨hno, j, by omega, by omega, hf⟩

lemma constantScan_cells (topo : Topological s) (pos : 1 ≤ n)
    (cells : ∀ i < n, ByteCell s (ls i)) :
    constantScan s ls n = .yes ∧ (∀ i < n, ls i = 0) ∨
      constantScan s ls n = .no ∧ ∃ i < n, ls i ≠ 0 := by
  have notBounds := (cells 0 pos).not_alloca topo.const
  by_cases zero : ls 0 = 0
  · have init : ∀ j, 1 ≤ j → j < 1 + (n - 1) → ls j ≠ kInitializingLabel := fun j _ hj =>
      (cells j (by omega)).ne_uninit topo
    simp only [constantScan, zero]
    rcases scan_of_initialised (fun i => ls i = 0) init with
      ⟨hyes, all⟩ | ⟨hno, j, hj, hk, hf⟩
    · refine .inl ⟨hyes, ?_⟩
      intro i hi
      by_cases first : i = 0
      · rw [first]; exact zero
      · exact of_decide_eq_true (all i (by omega) (by omega))
    · exact .inr ⟨hno, j, by omega, of_decide_eq_false hf⟩
  · refine .inr ⟨?_, 0, pos, zero⟩
    simp [constantScan, zero, notBounds]

lemma shapeScan_cells (topo : Topological s) (cells : ∀ i < n, ByteCell s (ls i)) :
    shapeScan s ls n = .yes ∧ ShapeMatches s ls n ∨
      shapeScan s ls n = .no ∧ ¬ ShapeMatches s ls n := by
  by_cases raw : (s.info (ls 0)).op = .input
  · have init : ∀ j, 1 ≤ j → j < 1 + (n - 1) → ls j ≠ kInitializingLabel := fun j _ hj =>
      (cells j (by omega)).ne_uninit topo
    simp only [shapeScan, raw]
    rcases scan_of_initialised _ init with ⟨hyes, all⟩ | ⟨hno, j, hj, hk, hf⟩
    · refine .inl ⟨hyes, raw, ?_⟩
      intro i hi hn
      exact of_decide_eq_true (all i hi (by omega))
    · refine .inr ⟨hno, ?_⟩
      rintro ⟨_, all⟩
      exact of_decide_eq_false hf (all j hj (by omega))
  · refine .inr ⟨?_, fun shape => raw shape.1⟩
    simp [shapeScan, raw]

/-- Over byte cells the extract scan covers eight bits a cell, up to the first
cell that is not the next extract. -/
lemma extractScan_cells (topo : Topological s) (parent : Nat)
    (cells : ∀ j, i ≤ j → j < i + k → ByteCell s (ls j)) :
    (extractScan s ls parent k i (8 * i) = some (8 * (i + k)) ∧
      ∀ j, i ≤ j → j < i + k → (s.info (ls j)).op = .extract ∧ (s.info (ls j)).op2 = 8 * j ∧
        (s.info (ls j)).l1 = parent) ∨
      ∃ j, i ≤ j ∧ j < i + k ∧ extractScan s ls parent k i (8 * i) = some (8 * j) ∧
        ¬ ((s.info (ls j)).op = .extract ∧ (s.info (ls j)).op2 = 8 * j ∧
          (s.info (ls j)).l1 = parent) := by
  induction k generalizing i with
  | zero => exact .inl ⟨rfl, fun j hj hk => by omega⟩
  | succ k ih =>
    have cell := cells i (Nat.le_refl i) (by omega)
    have here := cell.ne_uninit topo
    have size := cell.size topo.const
    have rest := ih (i := i + 1) (fun j hj hk => cells j (by omega) (by omega))
    by_cases next : (s.info (ls i)).op = .extract ∧ (s.info (ls i)).op2 = 8 * i ∧
        (s.info (ls i)).l1 = parent
    · have step : extractScan s ls parent (k + 1) i (8 * i) =
          extractScan s ls parent k (i + 1) (8 * (i + 1)) := by
        simp only [extractScan, here, next.1, next.2.1, next.2.2, size, ne_eq]
        rfl
      rw [step]
      rcases rest with ⟨hall, all⟩ | ⟨j, hj, hk, hstop, hne⟩
      · refine .inl ⟨by rw [hall]; congr 1; omega, ?_⟩
        intro j hj hk
        by_cases heq : j = i
        · rw [heq]; exact next
        · exact all j (by omega) (by omega)
      · exact .inr ⟨j, by omega, by omega, hstop, hne⟩
    · refine .inr ⟨i, Nat.le_refl i, by omega, ?_, next⟩
      have stops : (s.info (ls i)).op ≠ .extract ∨ 8 * i ≠ (s.info (ls i)).op2 ∨
          parent ≠ (s.info (ls i)).l1 := by
        by_contra all
        simp only [not_or, not_not] at all
        exact next ⟨all.1, all.2.1.symm, all.2.2.symm⟩
      simp only [extractScan, here, if_false]
      rw [if_pos stops]

end Cells

/-! ## Cells of any kind -/

section AnyCells

variable {fl : Flags} {mem : Nat → Nat} {s t s' : Runtime} {ls : Nat → Nat}
  {app : Nat → BitVec 8} {n i l label fuel ptr : Nat}

lemma usable_init (fl : Flags) (s : Runtime) : Usable fl s kInitializingLabel :=
  .inr (.inr (.inl rfl))

lemma usable_zero (fl : Flags) (s : Runtime) : Usable fl s 0 :=
  .inr (.inl (Nat.zero_le _))

lemma slowPath_usable (cells : ∀ j, Usable fl s (ls j)) (topo : Topological t) (ext : Extends s t)
    (hlabel : Usable fl t label) (h : slowPath fl mem ls app n fuel i label t = some (l, s')) :
    Grows Legal t s' ∧ Usable fl s' l := by
  induction fuel generalizing i label t with
  | zero =>
    simp only [slowPath] at h
    split at h
    · cases h; exact ⟨.refl, hlabel⟩
    · cases h
  | succ fuel ih =>
    have here := (cells i).extends ext
    -- every round is a union of usable labels followed by the rest of the loop
    have round : ∀ {op : Operator} {size : Nat} {o : Operands} {next : Nat},
        Usable fl t o.l1 → Usable fl t o.l2 →
        ((taintUnion fl mem t op size o).bind fun r =>
          slowPath fl mem ls app n fuel next r.1 r.2) = some (l, s') →
        Grows Legal t s' ∧ Usable fl s' l := by
      intro op size o next h1 h2 hround
      obtain ⟨⟨_, _⟩, first, rest⟩ := Option.bind_eq_some_iff.mp hround
      obtain ⟨grows, usable⟩ := taintUnion_usable topo h1 (fun _ => h2) first
      obtain ⟨grows', usable'⟩ := ih (topo.grows grows) (ext.trans grows.toExtends) usable rest
      exact ⟨grows.trans grows', usable'⟩
    simp only [slowPath] at h
    split at h
    · cases h; exact ⟨.refl, hlabel⟩
    split at h
    · cases h; exact ⟨.refl, usable_init _ _⟩
    split at h
    · split at h
      · exact round hlabel here h
      obtain ⟨⟨_, _⟩, first, rest⟩ := Option.bind_eq_some_iff.mp h
      obtain ⟨grows, usable⟩ := taintUnion_usable topo here (fun _ => usable_zero fl t) first
      obtain ⟨grows', usable'⟩ := taintUnion_usable (topo.grows grows)
        (hlabel.extends grows.toExtends) (fun _ => usable) rest
      exact ⟨grows.trans grows', usable'⟩
    · exact round hlabel (usable_zero fl t) h

lemma unionLoad_cases (h : unionLoad fl mem s ptr ls app n = some (l, s')) :
    s' = s ∧ (l = 0 ∨ l = kInitializingLabel ∨ l = ls 0 ∨
      ls 0 ≠ kInitializingLabel ∧ (s.info (ls 0)).op = .extract ∧ l = (s.info (ls 0)).l1) ∨
    taintUnion fl mem s .load (n * 8 % 2 ^ 16) ⟨ls 0, n % 2 ^ 32, 0, 0⟩ = some (l, s') ∨
    ∃ i, slowPath fl mem ls app n n i (ls 0) s = some (l, s') := by
  simp only [unionLoad] at h
  split at h
  · cases h; exact .inl ⟨rfl, .inl rfl⟩
  split at h
  · cases h; exact .inl ⟨rfl, .inr (.inl rfl)⟩
  rename_i init
  split at h
  · cases h
  split at h
  · cases h; exact .inl ⟨rfl, .inr (.inl rfl)⟩
  · cases h; exact .inl ⟨rfl, .inr (.inr (.inl rfl))⟩
  split at h
  · cases h; exact .inl ⟨rfl, .inr (.inl rfl)⟩
  · split at h
    · cases h; exact .inl ⟨rfl, .inr (.inr (.inl rfl))⟩
    · exact .inr (.inl h)
  split at h
  next extract =>
    split at h
    · cases h; exact .inl ⟨rfl, .inr (.inl rfl)⟩
    · split at h
      · cases h
        exact .inl ⟨rfl, .inr (.inr (.inr ⟨init, extract, rfl⟩))⟩
      · exact .inr (.inr ⟨_, h⟩)
  · exact .inr (.inr ⟨_, h⟩)

lemma unionLoad_usable (topo : Topological s) (cells : ∀ j, Usable fl s (ls j))
    (h : unionLoad fl mem s ptr ls app n = some (l, s')) : Grows Legal s s' ∧ Usable fl s' l := by
  rcases unionLoad_cases h with ⟨rfl, rfl | rfl | rfl | ⟨init, extract, rfl⟩⟩ | hload | ⟨i, hslow⟩
  · exact ⟨.refl, usable_zero _ _⟩
  · exact ⟨.refl, usable_init _ _⟩
  · exact ⟨.refl, cells 0⟩
  · refine ⟨.refl, (cells 0).imp_right fun exists' => ?_⟩
    exact base_existing topo exists' init (.inr (.inr extract))
  · exact taintUnion_usable topo (cells 0) (fun ne => absurd rfl ne) hload
  · exact slowPath_usable cells topo (.refl s) (cells 0) hslow

end AnyCells

end UnionLoad
