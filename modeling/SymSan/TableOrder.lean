import SymSan.RuntimeOps

/-!
# The union table stays in topological order

Operands of a record are labels before it or bounds of the stack, after any
sequence of runtime calls, provided the assertion in `__taint_union` is
compiled in or two integers that are used as labels happen to be labels: the
successors of the first label when a Load label is stored, and the scaled index
that `__taint_solve_bounds` puts in a label variable. The scans of the parsers
rely on the order; what they find at each label is stated for a scan over
`1..L`.
-/

namespace TableOrder

open LabelTable TableGrowth TaintUnion UnionLoad RuntimeOps
open Option (bind_eq_some_iff map_eq_some_iff)

variable {fl : Flags} {m : Machine} {s s' : Runtime} {x : Nat}

/-- `l1` and `l2` of a label `L`, as a reader of the table expects them. -/
def Operand (s : Runtime) (L x : Nat) : Prop :=
  x = 0 ∨ StackBounds s x ∨ 1 ≤ x ∧ x < L

def InOrder (s : Runtime) : Prop :=
  ∀ L, 1 ≤ L → L ≤ s.last → Operand s L (s.info L).l1 ∧
    ((s.info L).op ≠ .load → Operand s L (s.info L).l2)

/-- A scan of the labels in increasing order has dealt with the operands of
every label it comes to. -/
def ScanReady (s : Runtime) : Prop :=
  ∀ L, L ≤ s.last → ∀ before l after, List.range' 1 L = before ++ l :: after →
    ∀ x, x = (s.info l).l1 ∨ (s.info l).op ≠ .load ∧ x = (s.info l).l2 →
      x = 0 ∨ StackBounds s x ∨ x ∈ before

lemma inOrder_of_topological (topo : Topological s) : InOrder s := by
  have operand : ∀ {L x : Nat}, Placed s L x → Operand s L x := by
    rintro L x (before | bounds)
    · by_cases zero : x = 0
      · exact .inl zero
      · exact .inr (.inr ⟨by omega, before⟩)
    · exact .inr (.inl bounds)
  intro L pos le
  exact ⟨operand (topo.first L pos le), fun ne => operand (topo.second L pos le ne)⟩

lemma scanReady_of_inOrder (order : InOrder s) : ScanReady s := by
  intro L le before l after split x hx
  have sorted : (before ++ l :: after).Pairwise (· < ·) := split ▸ List.pairwise_lt_range' (s := 1)
  have later : ∀ y ∈ after, l < y := (List.pairwise_cons.mp (List.pairwise_append.mp sorted).2.1).1
  have scanned : ∀ y, y ∈ before ++ l :: after ↔ 1 ≤ y ∧ y < 1 + L := by
    intro y
    rw [← split, List.mem_range'_1]
  have hl := (scanned l).mp (by simp)
  obtain ⟨first, second⟩ := order l hl.1 (by omega)
  have found : Operand s l x := by
    rcases hx with rfl | ⟨ne, rfl⟩
    · exact first
    · exact second ne
  rcases found with zero | bounds | ⟨pos, lt⟩
  · exact .inl zero
  · exact .inr (.inl bounds)
  refine .inr (.inr ?_)
  rcases List.mem_append.mp ((scanned x).mpr ⟨pos, by omega⟩) with done | rest
  · exact done
  · rcases List.mem_cons.mp rest with same | todo
    · omega
    · have := later x todo
      omega

/-! ## One call -/

section Calls

variable {fl : Flags} {mem : Nat → Nat} {s s' : Runtime} {ls ls' : Nat → Nat}
  {l n ptr k i : Nat}

lemma createLabel_grows {offset : Nat} (h : createLabel s offset = some (l, s')) :
    Grows Legal s s' ∧ Existing s' l := by
  obtain ⟨ok, ⟨⟩⟩ := Option.ite_none_right_eq_some.mp h
  have zero : Placed s (s.last + 1) 0 := .inl (by omega)
  exact ⟨Grows.refl.push (Runtime.checkLabel_lt ok) ⟨zero, fun _ => zero⟩, .inl (Nat.le_refl _)⟩

lemma storeExtracts_usable (topo : Topological s) (hl : Usable fl s l)
    (cells : ∀ j, Usable fl s (ls j)) (h : storeExtracts fl mem l k i ls s = some (ls', s')) :
    Grows Legal s s' ∧ ∀ j, Usable fl s' (ls' j) := by
  induction k generalizing i ls s with
  | zero =>
    obtain ⟨rfl, rfl⟩ := h
    exact ⟨.refl, cells⟩
  | succ k ih =>
    obtain ⟨⟨l1, s1⟩, first, rest⟩ := bind_eq_some_iff.mp h
    obtain ⟨grows, usable⟩ := taintUnion_usable topo hl (fun _ => usable_zero fl s) first
    have ext := grows.toExtends
    have cells' : ∀ j, Usable fl s1 (setCell ls i l1 j) := by
      intro j
      by_cases here : j = i
      · simp only [setCell, if_pos here]; exact usable
      · simp only [setCell, if_neg here]; exact (cells j).extends ext
    obtain ⟨grows', after⟩ := ih (topo.grows grows) (hl.extends ext) cells' rest
    exact ⟨grows.trans grows', after⟩

lemma fillCells_usable {label : Nat → Nat} (cells : ∀ j, Usable fl s (ls j))
    (fill : ∀ j < n, Usable fl s (label j)) : ∀ j, Usable fl s (fillCells ls n label j) := by
  intro j
  by_cases inside : j < n
  · simp only [fillCells, if_pos inside]; exact fill j inside
  · simp only [fillCells, if_neg inside]; exact cells j

/-- A store writes usable labels if the successors of a broken-up label are. -/
lemma unionStore_usable (topo : Topological s) (hl : Usable fl s l)
    (cells : ∀ j, Usable fl s (ls j))
    (broken : BreaksUp s l n → ∀ j < n, Usable fl s (((s.info l).l1 + j) % 2 ^ 32))
    (h : unionStore fl mem s ptr l ls n = some (ls', s')) :
    Grows Legal s s' ∧ ∀ j, Usable fl s' (ls' j) := by
  rcases unionStore_cases h with ⟨rfl, rfl | rfl | rfl | ⟨breaks, rfl⟩⟩ | hloop
  · exact ⟨.refl, cells⟩
  · exact ⟨.refl, fillCells_usable cells fun _ _ => hl⟩
  · refine ⟨.refl, fun j => ?_⟩
    by_cases here : j = 0
    · simp only [setCell, if_pos here]; exact hl
    · simp only [setCell, if_neg here]; exact cells j
  · exact ⟨.refl, fillCells_usable cells (broken breaks)⟩
  · exact storeExtracts_usable topo hl cells hloop

lemma traceGlobal_grows {addr size : Nat} (h : traceGlobal fl s addr size = some (l, s')) :
    Grows Legal s s' := by
  simp only [traceGlobal] at h
  split at h
  · split at h
    · cases h; exact .refl
    obtain ⟨ok, ⟨⟩⟩ := Option.ite_none_right_eq_some.mp h
    have zero : Placed s (s.last + 1) 0 := .inl (by omega)
    exact Grows.refl.insert (Runtime.checkLabel_lt ok) ⟨zero, fun _ => zero⟩
  · cases h; exact .refl

/-! ### Bounds probes -/

/-- The bounds label, with the offset that puts an integer in the label variable. -/
def TakesScaledIndex (s : Runtime) (c : BoundsCall) : Prop :=
  c.numElems = 0 ∧ (s.info c.ptrLabel).op = .alloca ∧ (s.info c.ptrLabel).l2 ≠ 0 ∧
    c.offset (s.info c.ptrLabel).op1 = 0

/-- A relation that unions of labels satisfying `U` keep, whose results satisfy `U` again.
A probe is made of such unions and of conditions that are reported. -/
structure UnionRule (fl : Flags) (mem : Nat → Nat) (R : Runtime → Runtime → Prop)
    (U : Runtime → Nat → Prop) : Prop where
  refl : ∀ s, R s s
  trans : ∀ {s s' s''}, R s s' → R s' s'' → R s s''
  trace : ∀ {s s'} l check, R s s' → R s (s'.traceCond l check)
  keep : ∀ {s s' l}, R s s' → U s l → U s' l
  union : ∀ {s s' op size o l}, U s o.l1 → (op ≠ .load → U s o.l2) →
    taintUnion fl mem s op size o = some (l, s') → R s s' ∧ U s' l

namespace UnionRule

variable {R : Runtime → Runtime → Prop} {U : Runtime → Nat → Prop} {c : BoundsCall}

variable (rule : UnionRule fl mem R U)

include rule

lemma report {op : Operator} {size : Nat} {o : Operands} {check : UndefinedCheck} (h1 : U s o.l1)
    (h2 : op ≠ .load → U s o.l2) (h : report fl mem op size o check s = some s') : R s s' := by
  obtain ⟨⟨_, _⟩, union, rfl⟩ := map_eq_some_iff.mp h
  exact rule.trace _ _ (rule.union h1 h2 union).1

lemma report_twice {op op' : Operator} {size size' : Nat} {o o' : Operands}
    {check check' : UndefinedCheck} (h1 : U s o.l1) (h2 : U s o.l2) (h1' : U s o'.l1)
    (h2' : U s o'.l2)
    (h : ((RuntimeOps.report fl mem op size o check s).bind fun s =>
      RuntimeOps.report fl mem op' size' o' check' s) = some s') : R s s' := by
  obtain ⟨_, first, second⟩ := bind_eq_some_iff.mp h
  have one := rule.report h1 (fun _ => h2) first
  have two := rule.report (rule.keep one h1') (fun _ => rule.keep one h2') second
  exact rule.trans one two

lemma solveSymbolic {bounds : LabelInfo} (zero : U s 0) (hl : U s l) (hsize : U s bounds.l2)
    (scaled : c.offset bounds.op1 = 0 → U s (c.index * c.elemSize % 2 ^ 64 % 2 ^ 32))
    (h : solveSymbolic fl mem c bounds l s = some s') : R s s' := by
  obtain ⟨⟨l1, s1⟩, first, h⟩ := bind_eq_some_iff.mp h
  obtain ⟨⟨l2, s2⟩, second, h⟩ := bind_eq_some_iff.mp h
  have mul : R s s1 ∧ U s1 l1 := by
    split at first
    · cases first
      exact ⟨rule.refl s, hl⟩
    · exact rule.union hl (fun _ => zero) first
  obtain ⟨g1, u1⟩ := mul
  have add : R s1 s2 ∧ U s2 l2 := by
    split at second
    next offset =>
      cases second
      exact ⟨rule.refl s1, rule.keep g1 (scaled offset)⟩
    · exact rule.union u1 (fun _ => rule.keep g1 zero) second
  obtain ⟨g2, u2⟩ := add
  have both := rule.trans g1 g2
  exact rule.trans both (rule.report u2 (fun _ => rule.keep both hsize) h)

lemma solveBounds (zero : U s 0) (hptr : U s c.ptrLabel) (hindex : U s c.indexLabel)
    (hsize : (s.info c.ptrLabel).op = .alloca → U s (s.info c.ptrLabel).l2)
    (scaled : TakesScaledIndex s c → U s (c.index * c.elemSize % 2 ^ 64 % 2 ^ 32))
    (h : solveBounds fl mem c s = some s') : R s s' := by
  simp only [RuntimeOps.solveBounds] at h
  split at h
  · cases h
    exact rule.refl s
  split at h
  · split at h
    · cases h
    · cases h
      exact rule.refl s
  split at h
  · exact rule.report_twice hindex zero hindex zero h
  rename_i unknown
  split at h
  next hop =>
    obtain ⟨⟨l1, s1⟩, first, h⟩ := bind_eq_some_iff.mp h
    have extended : R s s1 ∧ U s1 l1 := by
      split at first
      · exact rule.union hindex (fun _ => zero) first
      · cases first
        exact ⟨rule.refl s, hindex⟩
    obtain ⟨g1, u1⟩ := extended
    have zero1 := rule.keep g1 zero
    split at h
    · simp only [solveConcrete] at h
      split at h
      · cases h
      · exact rule.trans g1 (rule.report_twice u1 zero1 u1 zero1 h)
    next symbolic =>
      refine rule.trans g1 (rule.solveSymbolic zero1 u1 (rule.keep g1 (hsize hop)) ?_ h)
      intro offset
      exact rule.keep g1 (scaled ⟨by omega, hop, symbolic, offset⟩)
  · exact rule.report hptr (fun ne => absurd rfl ne) h

end UnionRule

lemma legalRule (fl : Flags) (mem : Nat → Nat) :
    UnionRule fl mem (Grows Legal) fun s l => Topological s ∧ Usable fl s l where
  refl _ := .refl
  trans := .trans
  trace _ _ g := g.trace
  keep g u := ⟨u.1.grows g, u.2.extends g.toExtends⟩
  union h1 h2 h := by
    obtain ⟨g, u⟩ := taintUnion_usable h1.1 h1.2 (fun ne => (h2 ne).2) h
    exact ⟨g, h1.1.grows g, u⟩

end Calls

/-! ## Runs -/

/-- What the machine keeps: an ordered table, usable labels in shadow memory and
in the size fields of stack bounds. -/
structure Kept (fl : Flags) (m : Machine) : Prop where
  topo : Topological m.table
  cells : ∀ a, Usable fl m.table (m.shadow a)
  sizes : ∀ x, StackBounds m.table x → Usable fl m.table (m.table.info x).l2

/-- The labels a call passes exist, and an integer it would use as a label is
one, unless assertions guard the writes. -/
def Meets (fl : Flags) (m : Machine) (c : Call) : Prop :=
  c.Passes m ∧
    match c with
    | .store _ l _ n => BreaksUp m.table l n →
        ∀ j, j < n → Usable fl m.table (((m.table.info l).l1 + j) % 2 ^ 32)
    | .bounds b => TakesScaledIndex m.table b →
        Usable fl m.table (b.index * b.elemSize % 2 ^ 64 % 2 ^ 32)
    | _ => True

lemma StackBounds.before (h : StackBounds s' x) (e : Extends s s') :
    StackBounds s x ∧ s'.info x = s.info x := by
  have top := e.stackTop
  have same := e.same x (.inr (by have := h.1; omega))
  exact ⟨⟨by have := h.1; omega, same ▸ h.2⟩, same⟩

lemma Kept.grows {shadow' : Nat → Nat} (kept : Kept fl m) (g : Grows Legal m.table s')
    (cells : ∀ a, Usable fl s' (shadow' a)) : Kept fl ⟨s', shadow'⟩ where
  topo := kept.topo.grows g
  cells := cells
  sizes := by
    intro x bounds
    obtain ⟨old, same⟩ := StackBounds.before bounds g.toExtends
    rw [show s'.info x = m.table.info x from same]
    exact (kept.sizes x old).extends g.toExtends

lemma Kept.sameCells (kept : Kept fl m) (g : Grows Legal m.table s') : Kept fl ⟨s', m.shadow⟩ :=
  kept.grows g fun a => (kept.cells a).extends g.toExtends

lemma Kept.size_usable (kept : Kept fl m) (h : Existing m.table x)
    (hop : (m.table.info x).op = .alloca) (init : x ≠ kInitializingLabel) :
    Usable fl m.table (m.table.info x).l2 := by
  rcases h with le | h | bounds
  · by_cases zero : x = 0
    · rw [zero, kept.topo.const] at hop
      cases hop
    · rcases kept.topo.second x (by omega) le (by simp [hop]) with before | bounds
      · exact .inr (.inl (by omega))
      · exact .inr (.inr (.inr bounds))
  · exact absurd h init
  · exact kept.sizes x bounds

lemma exec_kept (m : Machine) (mem : Nat → Nat) (c : Call) (m' : Machine) (kept : Kept fl m)
    (meets : Meets fl m c) (h : exec fl mem m c = some m') : Kept fl m' := by
  cases c with
  | input addr offset =>
    obtain ⟨⟨l, s'⟩, create, rfl⟩ := map_eq_some_iff.mp h
    obtain ⟨grows, exists'⟩ := createLabel_grows create
    refine kept.grows grows fun a => ?_
    by_cases here : a = addr
    · simp only [setCell, if_pos here]; exact .inr exists'
    · simp only [setCell, if_neg here]; exact (kept.cells a).extends grows.toExtends
  | union op size o =>
    obtain ⟨⟨l, s'⟩, union, rfl⟩ := map_eq_some_iff.mp h
    exact kept.sameCells (taintUnion_usable kept.topo (.inr meets.1.1)
      (fun ne => .inr (meets.1.2 ne)) union).1
  | load ptr addr n app =>
    obtain ⟨⟨l, s'⟩, load, rfl⟩ := map_eq_some_iff.mp h
    exact kept.sameCells (unionLoad_usable kept.topo (fun j => kept.cells (addr + j)) load).1
  | store ptr l addr n =>
    obtain ⟨⟨_, s'⟩, store, rfl⟩ := map_eq_some_iff.mp h
    obtain ⟨grows, after⟩ := unionStore_usable kept.topo (.inr meets.1)
      (fun j => kept.cells (addr + j)) meets.2 store
    refine kept.grows grows fun a => ?_
    by_cases inside : addr ≤ a
    · simp only [Machine.putCells, if_pos inside]; exact after (a - addr)
    · simp only [Machine.putCells, if_neg inside]; exact (kept.cells a).extends grows.toExtends
  | global addr size =>
    obtain ⟨⟨l, s'⟩, create, rfl⟩ := map_eq_some_iff.mp h
    exact kept.sameCells (traceGlobal_grows create)
  | bounds b =>
    obtain ⟨s', solve, rfl⟩ := map_eq_some_iff.mp h
    by_cases init : b.ptrLabel = kInitializingLabel
    · -- nothing is built for an uninitialised pointer
      have same : s' = m.table := by
        simp only [solveBounds, init, or_true, if_true] at solve
        split at solve
        · cases solve; rfl
        · split at solve
          · cases solve
          · cases solve; rfl
      subst same
      exact kept
    · exact kept.sameCells ((legalRule fl _).solveBounds ⟨kept.topo, usable_zero fl _⟩
        ⟨kept.topo, .inr meets.1.1⟩ ⟨kept.topo, .inr meets.1.2⟩
        (fun hop => ⟨kept.topo, kept.size_usable meets.1.1 hop init⟩)
        (fun takes => ⟨kept.topo, meets.2 takes⟩) solve)

/-- Topological order of the union table: from a machine in order, every run
whose calls pass existing labels, and use as labels only integers that are
labels (or are checked by the assertions), ends in a table whose operands are
zero, stack bounds or earlier labels, and a scan over `1..L` meets every operand
before the label that uses it. -/
theorem run_inOrder (fl : Flags) (m m' : Machine) (steps : List Step) (start : Kept fl m)
    (meets : Throughout fl (Meets fl) m steps) (run : runAll fl m steps = some m') :
    InOrder m'.table ∧ ScanReady m'.table := by
  have kept : Kept fl m' := runAll_invariant exec_kept start meets run
  have order := inOrder_of_topological kept.topo
  exact ⟨order, scanReady_of_inOrder order⟩

lemma empty_kept (fl : Flags) {top : Nat} (room : 0 < top) (le : top ≤ kInitializingLabel) :
    Kept fl ⟨tableOf [] top, fun _ => 0⟩ where
  topo := (tableOf_wellFormed room le (by simp)).toTopological
  cells := fun _ => usable_zero _ _
  sizes := by
    intro x bounds
    have op : ((tableOf [] top).info x).op = .input := by
      by_cases zero : x = 0
      · rw [zero]; rfl
      · simp [tableOf, zero, zeroInfo]
    exact absurd (op.symm.trans bounds.2) (by decide)

/-- An input byte, and the same byte plus five. -/
theorem run_inOrder_byte_plus_five : ∃ m',
    runAll ⟨true, true, false, false⟩ ⟨tableOf [] 1000, fun _ => 0⟩
      [⟨fun _ => 0, .input 0 0⟩, ⟨fun _ => 0, .union .add 8 ⟨1, 0, 7, 5⟩⟩] = some m' ∧
      m'.table.last = 2 ∧ InOrder m'.table ∧ ScanReady m'.table := by
  have run : (runAll ⟨true, true, false, false⟩ ⟨tableOf [] 1000, fun _ => 0⟩
      [⟨fun _ => 0, .input 0 0⟩, ⟨fun _ => 0, .union .add 8 ⟨1, 0, 7, 5⟩⟩]).map
        (fun m => m.table.last) = some 2 := by decide
  obtain ⟨m', h, last⟩ := map_eq_some_iff.mp run
  refine ⟨m', h, last, run_inOrder _ _ m' _ (empty_kept _ (by decide) (by decide)) ?_ h⟩
  refine ⟨⟨trivial, trivial⟩, ?_⟩
  intro m1 first
  have labels : (exec ⟨true, true, false, false⟩ (fun _ => 0) ⟨tableOf [] 1000, fun _ => 0⟩
      (.input 0 0)).map (fun m => m.table.last) = some 1 := by decide
  rw [first] at labels
  have last1 : m1.table.last = 1 := Option.some.inj labels
  have holds : Existing m1.table 1 := .inl (by omega)
  exact ⟨⟨⟨holds, fun _ => .inl (Nat.zero_le _)⟩, trivial⟩, fun _ _ => trivial⟩

/-- A buffer of symbolic size is indexed by 100 elements of 8 bytes from its
start: without assertions the comparison that is built takes the number 800 as
its first operand, at label 5. -/
theorem solveBounds_scaled_index_label : let fl : Flags := ⟨true, true, false, false⟩
    let start : Machine := ⟨tableOf [] 1000, fun _ => 0⟩
    let steps : List Step :=
      [⟨fun _ => 0, .input 0 0⟩, ⟨fun _ => 0, .union .zext 64 ⟨1, 0, 5, 0⟩⟩,
        ⟨fun _ => 0, .union .alloca 64 ⟨0, 2, 4096, 4101⟩⟩,
        ⟨fun _ => 0, .bounds ⟨3, 4096, 2, 100, 0, 8, 0⟩⟩]
    Kept fl start ∧ Throughout fl (fun m c => c.Passes m) start steps ∧
      ∃ m', runAll fl start steps = some m' ∧ m'.table.last = 5 ∧
        (m'.table.info 5).l1 = 800 ∧ ¬ InOrder m'.table := by
  intro fl start steps
  have run : (runAll fl start steps).map (fun m => (m.table.last, (m.table.info 5).l1,
      m.table.stackTop)) = some (5, 800, 1000) := by decide
  obtain ⟨m', h, values⟩ := map_eq_some_iff.mp run
  simp only [Prod.mk.injEq] at values
  obtain ⟨last, operand, _⟩ := values
  refine ⟨empty_kept fl (by decide) (by decide), ?_, m', h, last, operand, ?_⟩
  · -- the labels passed are at most the number of labels taken so far
    have taken : ∀ k m1, runAll fl start (steps.take k) = some m1 → k < 4 → k ≤ m1.table.last := by
      intro k m1 hrun hk
      have lasts : ∀ j, j < 4 →
          (runAll fl start (steps.take j)).map (fun m => m.table.last) = some j := by decide
      have last1 := lasts k hk
      rw [hrun] at last1
      exact Nat.le_of_eq (Option.some.inj last1).symm
    refine ⟨trivial, fun m1 h1 => ⟨⟨.inl (taken 1 m1 ?_ (by decide)), fun _ =>
      .inl (Nat.zero_le _)⟩, fun m2 h2 => ⟨⟨.inl (Nat.zero_le _), fun _ =>
      .inl (taken 2 m2 ?_ (by decide))⟩, fun m3 h3 => ⟨⟨.inl (taken 3 m3 ?_ (by decide)),
      .inl (Nat.le_of_succ_le (taken 3 m3 ?_ (by decide)))⟩, fun _ _ => trivial⟩⟩⟩⟩
    · simp [steps, runAll, h1]
    · simp [steps, runAll, h1, h2]
    all_goals simp [steps, runAll, h1, h2, h3]
  · intro order
    have first := (order 5 (by decide) (by omega)).1
    rw [operand] at first
    rcases first with zero | bounds | before
    · cases zero
    · have := bounds.1
      omega
    · omega

end TableOrder
